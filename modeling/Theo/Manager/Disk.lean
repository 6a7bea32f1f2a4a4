import Theo.Cache.Move
import Theo.Lib.Only
import Theo.Lib.Triple
import Theo.Model.CacheManager

set_option autoImplicit false

/-! # The file of a cache manager

What system calls do to the one file there is, and what `cache_manager_check_file` makes of it: it keeps
a file of the required size, and replaces any other by one of zeros. A creation that fails half way
leaves zeros too, as many as were written. -/

namespace Theo

open ByteMachine Hoare

/-- A file: its length and its bytes, of which those past the length mean nothing. -/
structure File where
  size : Nat
  bytes : Mem

def File.empty : File := ⟨0, fun _ => 0⟩

/-- Writing at an offset. -/
def File.write (f : File) (offset : Nat) (bytes : List UInt8) : File :=
  ⟨max f.size (offset + bytes.length), f.bytes.write offset bytes⟩

/-- A file of zeros. -/
def File.Blank (f : File) : Prop := f.bytes.Zero 0 f.size

/-- What is relied on. The system keeps the file and an offset for each descriptor: `stat` fails only
when there is no file; `O_CREAT` makes an empty one; a write stores some of its bytes at the offset, or
fails; a mapping shows the bytes of the file, and is not at address 0; unmapping leaves in the file what
the mapping held. A call that fails leaves the file as it is. -/
structure Msys.OnDisk {σ : Type} (os : Msys σ) (file : σ → Option File) (offset : σ → Int → Nat) :
    Prop where
  stat : ∀ s, (os.stat s).1 = (file s).map File.size ∧ file (os.stat s).2 = file s
  unlink : ∀ s, file (os.unlink s).2 = if (os.unlink s).1 = 0 then none else file s
  openFailed : ∀ create s, (os.openFile create s).1 < 0 → file (os.openFile create s).2 = file s
  opened : ∀ s, 0 ≤ (os.openFile false s).1 → file (os.openFile false s).2 = file s
  created : ∀ s, 0 ≤ (os.openFile true s).1 →
    file (os.openFile true s).2 = some ((file s).getD File.empty) ∧
    offset (os.openFile true s).2 (os.openFile true s).1 = 0
  writeFailed : ∀ fd bytes s, (os.write fd bytes s).1 < 0 →
    file (os.write fd bytes s).2 = file s ∧ offset (os.write fd bytes s).2 fd = offset s fd
  written : ∀ fd bytes s f, file s = some f → 0 ≤ (os.write fd bytes s).1 →
    (os.write fd bytes s).1 ≤ bytes.length ∧
    file (os.write fd bytes s).2 =
      some (f.write (offset s fd) (bytes.take (os.write fd bytes s).1.toNat)) ∧
    offset (os.write fd bytes s).2 fd = offset s fd + (os.write fd bytes s).1.toNat
  fsync : ∀ fd s, file (os.fsync fd s).2 = file s
  close : ∀ fd s, file (os.close fd s).2 = file s
  mmap : ∀ length sync fd s, file (os.mmap length sync fd s).2 = file s
  mapped : ∀ length sync fd s ptr bytes f, file s = some f →
    (os.mmap length sync fd s).1 = .mapped ptr bytes →
      ptr ≠ 0 ∧ f.bytes.Agree bytes 0 (min length f.size)
  munmap : ∀ ptr length bytes s f, file s = some f → (os.munmap ptr length bytes s).1 = 0 →
    ∃ f', file (os.munmap ptr length bytes s).2 = some f' ∧ f'.size = f.size ∧
      Mem.Agree bytes f'.bytes 0 (min length f.size)

/-- The call creates the file. -/
def SysCall.creates : SysCall → Bool
  | .openFile true fd => 0 ≤ fd
  | _ => false

/-- How often the file was created. -/
def creations (calls : List SysCall) : Nat := calls.countP SysCall.creates

/-- The file is `f`, and it was created `c` times. -/
structure Sees {σ : Type} (file : σ → Option File) (f : Option File) (c : Nat) (p : Process σ) :
    Prop where
  file : file p.sys = f
  created : creations p.calls = c

/-- What can have become of the file `f`, created `c` times: it is still there, it is gone, or there is a
new one of zeros. -/
inductive Became (f : Option File) (c : Nat) : Option File → Nat → Prop where
  | kept : Became f c f c
  | removed : Became f c none c
  | made (g : File) (hblank : g.Blank) : Became f c (some g) (c + 1)

/-- The process sees what has become of the file, of which `φ` holds. -/
def Leaves {σ : Type} (file : σ → Option File) (f : Option File) (c : Nat)
    (φ : Option File → Prop) (p : Process σ) : Prop :=
  ∃ g : Option File × Nat, (Became f c g.1 g.2 ∧ φ g.1) ∧ Sees file g.1 g.2 p

section

variable {σ α : Type} {os : Msys σ} {file : σ → Option File} {offset : σ → Int → Nat}
  {f : Option File} {c : Nat} {p : Process σ}

theorem creations_note (calls : List SysCall) (call : SysCall) :
    creations (calls ++ [call]) = creations calls + if call.creates then 1 else 0 := by
  rw [creations, creations, List.countP_append, List.countP_singleton]

theorem Sees.note (h : Sees file f c p) {call : SysCall} (hcall : call.creates = false) :
    Sees file f c (p.note call) := by
  refine ⟨h.file, ?_⟩
  rw [Process.note, creations_note, hcall, h.created]
  rfl

/-- What the process sees behind a call. -/
theorem Sees.step {sys : σ} {f' : Option File} {call : SysCall} (h : Sees file f c p)
    (hfile : file sys = f') (hcall : call.creates = false) :
    Sees file f' c ({ p with sys := sys }.note call) := by
  have hsys : Sees file f' c { p with sys := sys } := ⟨hfile, h.created⟩
  exact hsys.note hcall

/-! ## One call -/

/-- A call that does not create the file. -/
theorem sysCall_triple {call : σ → α × σ} {record : α → SysCall} {P : Process σ → Prop}
    {Q : α → Process σ → Prop} (h : ∀ p, P p →
      Q (call p.sys).1 ({ p with sys := (call p.sys).2 }.note (record (call p.sys).1))) :
    Triple P (sysCall call record) Q :=
  Triple.of_run (fun _ => rfl) h

theorem msysStat_triple (hos : os.OnDisk file offset) : Triple (Sees file f c) (msysStat os)
    (fun size p => size = f.map File.size ∧ Sees file f c p) := by
  refine sysCall_triple fun p hp => ?_
  obtain ⟨hsize, hkeep⟩ := hos.stat p.sys
  rw [hp.file] at hsize hkeep
  exact ⟨hsize, hp.step hkeep rfl⟩

theorem msysUnlink_triple (hos : os.OnDisk file offset) : Triple (Sees file f c) (msysUnlink os)
    (fun ret => Sees file (if ret = 0 then none else f) c) := by
  refine sysCall_triple fun p hp => hp.step ?_ rfl
  rw [← hp.file]
  exact hos.unlink p.sys

theorem msysOpen_triple (hos : os.OnDisk file offset) : Triple (Sees file f c) (msysOpen os false)
    (fun _ => Sees file f c) := by
  refine sysCall_triple fun p hp => hp.step ?_ rfl
  rw [← hp.file]
  rcases Int.lt_or_le (os.openFile false p.sys).1 0 with hneg | hpos
  · exact hos.openFailed false p.sys hneg
  · exact hos.opened p.sys hpos

theorem msysFsync_triple (hos : os.OnDisk file offset) (fd : Int) :
    Triple (Sees file f c) (msysFsync os fd) (fun _ => Sees file f c) :=
  sysCall_triple fun p hp => hp.step ((hos.fsync fd p.sys).trans hp.file) rfl

theorem msysClose_triple (hos : os.OnDisk file offset) (fd : Int) :
    Triple (Sees file f c) (msysClose os fd) (fun _ => Sees file f c) :=
  sysCall_triple fun p hp => hp.step ((hos.close fd p.sys).trans hp.file) rfl

theorem note_triple {call : SysCall} (hcall : call.creates = false) :
    Triple (Sees file f c) (note call) (fun _ => Sees file f c) :=
  Triple.of_run (fun _ => rfl) fun _ hp => hp.note hcall

theorem sysAlways_holds {P : Process σ → Prop} (b : Bool) :
    Triple P (sysAlways b) (fun _ p => b = true ∧ P p) := by
  rw [sysAlways]
  exact Triple.ite (fun hb => Triple.pure fun _ hp => ⟨hb, hp⟩) fun _ => Triple.throw _

theorem sysAlways_triple {P : Process σ → Prop} (b : Bool) : Triple P (sysAlways b) (fun _ => P) :=
  (sysAlways_holds b).weaken (fun _ hp => hp) fun _ _ hp => hp.2

/-! ## Creating the file -/

/-- A file of `size` zeros is being written through the descriptor `fd`. -/
structure Writing (file : σ → Option File) (offset : σ → Int → Nat) (c : Nat) (fd : Int) (size : Nat)
    (p : Process σ) : Prop where
  sees : ∃ f, Sees file (some f) c p ∧ f.Blank ∧ f.size = size
  atEnd : offset p.sys fd = size

theorem File.Blank.append {f : File} (h : f.Blank) {bytes : List UInt8} (hzero : ∀ b ∈ bytes, b = 0) :
    (f.write f.size bytes).Blank := by
  have hbytes : bytes = List.replicate bytes.length 0 := List.eq_replicate_iff.2 ⟨rfl, hzero⟩
  intro a hlo hhi
  show f.bytes.write f.size bytes a = 0
  rw [hbytes, Mem.write_replicate_zero]
  split
  · rfl
  · next hout =>
      have hsize : (f.write f.size bytes).size = max f.size (f.size + bytes.length) := rfl
      exact h a hlo (by omega)

/-- One write of zeros at the end of the file. -/
theorem msysWrite_triple (hos : os.OnDisk file offset) {fd : Int} {size n : Nat} :
    Triple (Writing file offset c fd size) (msysWrite os fd (List.replicate n 0))
      (fun ret p => ret < 0 ∧ Writing file offset c fd size p ∨
        0 ≤ ret ∧ ret.toNat ≤ n ∧ Writing file offset c fd (size + ret.toNat) p) := by
  refine sysCall_triple fun p hp => ?_
  obtain ⟨⟨f, hsees, hblank, hsize⟩, hoffset⟩ := hp
  obtain ⟨ret, hret⟩ : ∃ ret, ret = (os.write fd (List.replicate n 0) p.sys).1 := ⟨_, rfl⟩
  rw [← hret]
  rcases Int.lt_or_le ret 0 with hneg | hpos
  · left
    obtain ⟨hfile, hoff⟩ := hos.writeFailed fd (List.replicate n 0) p.sys (hret ▸ hneg)
    exact ⟨hneg, ⟨f, hsees.step (hfile.trans hsees.file) rfl, hblank, hsize⟩,
      hoff.trans hoffset⟩
  · right
    obtain ⟨hle, hfile, hoff⟩ := hos.written fd (List.replicate n 0) p.sys f hsees.file (hret ▸ hpos)
    rw [← hret, List.length_replicate] at hle
    rw [← hret, hoffset, ← hsize, List.take_replicate, Nat.min_eq_left (by omega)] at hfile
    rw [← hret, hoffset] at hoff
    refine ⟨hpos, by omega, ⟨_, hsees.step hfile rfl, hblank.append ?_, ?_⟩, hoff⟩
    · intro b hb
      exact List.eq_of_mem_replicate hb
    · rw [File.write, List.length_replicate, hsize]
      exact Nat.max_eq_right (Nat.le_add_right _ _)

/-- A megabyte is written in as many pieces as it takes. -/
theorem createFileWriteLoop_triple (hos : os.OnDisk file offset) {fd : Int} {fuel written size : Nat}
    (hwritten : written < cacheManagerMb) : Triple (Writing file offset c fd (size + written))
      (createFileWriteLoop os fd fuel written)
      (fun ret p => ∃ size', Writing file offset c fd size' p ∧
        (ret = 0 → size' = size + cacheManagerMb)) := by
  -- the induction is on the fuel; what was written is at the end of the file in every round
  induction fuel generalizing written with
  | zero => exact Triple.throw _
  | succ fuel ih =>
      rw [createFileWriteLoop]
      refine (msysWrite_triple hos).bind fun ret => Triple.ite (fun hneg => ?_) fun hpos => ?_
      · refine Triple.pure fun p hp => ?_
        rcases hp with ⟨-, hp⟩ | ⟨hpos, -⟩
        · exact ⟨_, hp, fun h => absurd h (by decide)⟩
        · omega
      · refine Triple.ite (fun hmore => (ih hmore).pre fun p hp => ?_)
          fun hdone => Triple.pure fun p hp => ?_
        · rcases hp with ⟨hneg, -⟩ | ⟨-, -, hp⟩
          · exact absurd hneg hpos
          · rwa [Nat.add_assoc] at hp
        · rcases hp with ⟨hneg, -⟩ | ⟨-, hle, hp⟩
          · exact absurd hneg hpos
          · exact ⟨_, hp, fun _ => by omega⟩

theorem createFileLoop_triple (hos : os.OnDisk file offset) {fd : Int} {n size : Nat} :
    Triple (Writing file offset c fd size) (createFileLoop os fd n)
      (fun ret p => ∃ size', Writing file offset c fd size' p ∧
        (ret = 0 → size' = size + n * cacheManagerMb)) := by
  induction n generalizing size with
  | zero =>
      refine Triple.pure fun p hp => ⟨size, hp, fun _ => ?_⟩
      rw [Nat.zero_mul, Nat.add_zero]
  | succ n ih =>
      rw [createFileLoop]
      have hone : Triple (Writing file offset c fd size)
          (createFileWriteLoop os fd cacheManagerMb 0) _ := createFileWriteLoop_triple hos (show 0 < cacheManagerMb by decide)
      refine hone.bind fun ret => Triple.of_exists fun size' =>
        Triple.ite (fun hret => ?_) fun hret => ?_
      · exact Triple.pure fun p hp => ⟨size', hp.1, fun h => absurd h hret⟩
      · have hzero : ret = 0 := Decidable.not_not.1 hret
        intro p a p' hp hrun
        obtain ⟨size'', hwriting, hsize⟩ := ih p a p' hp.1 hrun
        refine ⟨size'', hwriting, fun h => ?_⟩
        rw [hsize h, hp.2 hzero, Nat.succ_mul]
        omega

theorem msysCreate_triple (hos : os.OnDisk file offset) : Triple (Sees file none c) (msysOpen os true)
    (fun fd p => fd < 0 ∧ Sees file none c p ∨ 0 ≤ fd ∧ Writing file offset (c + 1) fd 0 p) := by
  refine sysCall_triple fun p hp => ?_
  obtain ⟨fd, hfd⟩ : ∃ fd, fd = (os.openFile true p.sys).1 := ⟨_, rfl⟩
  rw [← hfd]
  rcases Int.lt_or_le fd 0 with hneg | hpos
  · left
    refine ⟨hneg, hp.step ((hos.openFailed true p.sys (hfd ▸ hneg)).trans hp.file) ?_⟩
    exact decide_eq_false (by omega)
  · right
    obtain ⟨hfile, hoff⟩ := hos.created p.sys (hfd ▸ hpos)
    rw [hp.file, Option.getD_none] at hfile
    have hcreates : (SysCall.openFile true fd).creates = true := decide_eq_true hpos
    refine ⟨hpos, ⟨File.empty, ⟨hfile, ?_⟩, fun _ _ _ => rfl, rfl⟩, by rw [hfd]; exact hoff⟩
    rw [Process.note, creations_note, hcreates, hp.created]
    rfl

theorem Writing.note {fd : Int} {size : Nat} (h : Writing file offset c fd size p) {call : SysCall}
    (hcall : call.creates = false) : Writing file offset c fd size (p.note call) := by
  obtain ⟨⟨f, hsees, hf⟩, hoffset⟩ := h
  exact ⟨⟨f, hsees.note hcall, hf⟩, hoffset⟩

theorem createFileSync_triple (hos : os.OnDisk file offset) (fd ret : Int) :
    Triple (Sees file f c) (createFileSync os fd ret) (fun _ => Sees file f c) := by
  rw [createFileSync]
  refine Triple.ite (fun _ => Triple.pure fun _ hp => hp) fun _ => ?_
  exact (msysFsync_triple hos fd).bind fun _ => sysAlways_triple _

/-- The file has the size that was asked for, if the attempt succeeded. -/
def Complete (size : Nat) (ret : Int) (f : Option File) : Prop := ret = 0 → f.map File.size = some size

/-- A creation leaves zeros, however many. -/
theorem cacheManagerCreateFile_triple (hos : os.OnDisk file offset) (n : Nat) :
    Triple (Sees file none c) (cacheManagerCreateFile os (n * cacheManagerMb))
      (fun ret => Leaves file none c (Complete (n * cacheManagerMb) ret)) := by
  have hmb : n * cacheManagerMb / cacheManagerMb = n := Nat.mul_div_cancel _ (by decide)
  rw [cacheManagerCreateFile, hmb]
  refine (msysCreate_triple hos).bind fun fd => Triple.ite (fun hneg => ?_) fun hpos => ?_
  · refine Triple.pure fun p hp => ?_
    rcases hp with ⟨-, hp⟩ | ⟨hpos, -⟩
    · exact ⟨(none, c), ⟨.kept, fun h => absurd h (by decide)⟩, hp⟩
    · omega
  · have hmalloc : Triple
        (fun p => fd < 0 ∧ Sees file none c p ∨ 0 ≤ fd ∧ Writing file offset (c + 1) fd 0 p)
        (note .xmallocBuffer) (fun _ => Writing file offset (c + 1) fd 0) := by
      refine Triple.of_run (fun _ => rfl) fun p hp => ?_
      rcases hp with ⟨hneg, -⟩ | ⟨-, hp⟩
      · exact absurd hneg hpos
      · exact hp.note rfl
    refine hmalloc.bind fun _ => (createFileLoop_triple hos).bind fun ret => ?_
    -- from here on the file stays as it is
    let φ (g : Option File × Nat) : Prop :=
      Became none c g.1 g.2 ∧ Complete (n * cacheManagerMb) ret g.1
    have hsync := Triple.keep φ fun g => createFileSync_triple hos (f := g.1) (c := g.2) fd ret
    have hclose := Triple.keep φ fun g => msysClose_triple hos (f := g.1) (c := g.2) fd
    have hfree := Triple.keep φ fun g =>
      (note_triple rfl : Triple (Sees file g.1 g.2) (note .xfreeBuffer) _)
    have hrest : Triple (Leaves file none c (Complete (n * cacheManagerMb) ret)) _
        (fun ret => Leaves file none c (Complete (n * cacheManagerMb) ret)) :=
      hsync.bind fun _ => hclose.bind fun closed => (sysAlways_triple (closed = 0)).bind fun _ =>
        hfree.bind fun _ => Triple.pure fun p hp => hp
    refine hrest.pre fun p hp => ?_
    obtain ⟨size, ⟨⟨f, hsees, hblank, hf⟩, -⟩, hsize⟩ := hp
    refine ⟨(some f, c + 1), ⟨.made f hblank, fun h => ?_⟩, hsees⟩
    rw [Option.map_some, hf, hsize h, Nat.zero_add]

/-! ## Checking the file -/

/-- A file that is removed and created anew. -/
theorem Leaves.of_none {φ : Option File → Prop} (h : Leaves file none c φ p) :
    Leaves file f c φ p := by
  obtain ⟨⟨g, c'⟩, ⟨hbecame, hg⟩, hsees⟩ := h
  cases hbecame with
  | kept => exact ⟨(none, _), ⟨.removed, hg⟩, hsees⟩
  | removed => exact ⟨(none, _), ⟨.removed, hg⟩, hsees⟩
  | made g hblank => exact ⟨(some g, _), ⟨.made g hblank, hg⟩, hsees⟩

theorem cacheManagerCheckFile_triple (hos : os.OnDisk file offset) (n : Nat) :
    Triple (Sees file f c) (cacheManagerCheckFile os (n * cacheManagerMb))
      (fun ret => Leaves file f c (Complete (n * cacheManagerMb) ret)) := by
  rw [cacheManagerCheckFile]
  refine (msysStat_triple hos).bind fun size => ?_
  cases size with
  | none =>
      refine (cacheManagerCreateFile_triple hos n).weaken (fun p hp => ?_) fun _ _ => Leaves.of_none
      have hnone : f = none := Option.map_eq_none_iff.1 hp.1.symm
      exact hnone ▸ hp.2
  | some size =>
      refine Triple.ite (fun _ => ?_) fun hsize => Triple.pure fun p hp => ?_
      · -- a file of another size goes, and is created anew
        refine ((msysUnlink_triple hos).pre fun p hp => hp.2).bind fun ret => ?_
        refine Triple.ite (fun hret => Triple.pure fun p hp => ?_) fun hret => ?_
        · rw [if_neg hret] at hp
          exact ⟨(f, c), ⟨.kept, fun h => absurd h hret⟩, hp⟩
        · rw [if_pos (Decidable.not_not.1 hret)]
          exact (cacheManagerCreateFile_triple hos n).weaken (fun _ hp => hp) fun _ _ => Leaves.of_none
      · rw [Decidable.not_not.1 hsize] at hp
        exact ⟨(f, c), ⟨.kept, fun _ => hp.1.symm⟩, hp.2⟩

/-! ## Opening and releasing -/

/-- The cache manager has the file mapped as a cache of `n` cells: what `cache_init` found at the
address is `f`. -/
structure Attached (f : File) (n : Nat) (cacheManager : CacheManager) (p : Process σ) : Prop where
  cache : cacheManager.cache = cacheAt cacheManager.ptr n
  ptr : cacheManager.ptr ≠ 0
  size : cacheManager.memorySize = (n + 1) * cacheCellSize
  length : f.size = cacheManager.memorySize
  init : ∃ s : Store, f.bytes.Agree (s.mem.shift cacheManager.ptr) 0 cacheManager.memorySize ∧
    cacheInit cacheManager.ptr cacheManager.memorySize s = .ok cacheManager.cache p.store

theorem msysMmap_triple (hos : os.OnDisk file offset) {f : File} {length : Nat} (sync : Bool) (fd : Int)
    (hsize : f.size = length) : Triple (Sees file (some f) c) (msysMmap os length sync fd)
      (fun mapping p => Sees file (some f) c p ∧ ∀ ptr bytes, mapping = .mapped ptr bytes →
        ptr ≠ 0 ∧ f.bytes.Agree (p.store.mem.shift ptr) 0 length) := by
  refine Triple.of_run (fun _ => rfl) fun p hp => ⟨?_, fun ptr bytes hmapping => ?_⟩
  · have hsys : Sees file (some f) c { p with
        sys := (os.mmap length sync fd p.sys).2
        store := (os.mmap length sync fd p.sys).1.store length p.store } :=
      ⟨(hos.mmap length sync fd p.sys).trans hp.file, hp.created⟩
    exact hsys.note rfl
  · obtain ⟨hptr, hagree⟩ := hos.mapped length sync fd p.sys ptr bytes f hp.file hmapping
    rw [hsize, Nat.min_self] at hagree
    refine ⟨hptr, ?_⟩
    show f.bytes.Agree (((os.mmap length sync fd p.sys).1.store length p.store).mem.shift ptr) 0 length
    rw [hmapping]
    exact hagree.trans (mapBytes_shift p.store.mem ptr length bytes)

/-- The file is `f`, it was created `c` times, and the memory is `m`. -/
structure Stands (file : σ → Option File) (f : Option File) (c : Nat) (m : Mem) (p : Process σ) :
    Prop where
  sees : Sees file f c p
  mem : p.store.mem = m

theorem onCache_triple {x : Act α} {P : Process σ → Prop} {Q : α → Process σ → Prop}
    (h : ∀ p a s, P p → x p.store = .ok a s → Q a { p with store := s }) : Triple P (onCache x) Q := by
  intro p a p' hp hrun
  rw [onCache] at hrun
  cases hresult : x p.store with
  | ok b s =>
      rw [hresult] at hrun
      obtain ⟨rfl, rfl⟩ := EStateM.Result.ok.inj hrun
      exact h p b s hp hresult
  | error e s =>
      rw [hresult] at hrun
      cases hrun

theorem onCache_reads {x : Act α} (hx : Reads x) {P : Process σ → Prop} :
    Triple P (onCache x) (fun _ => P) := by
  refine onCache_triple fun p a s hp hrun => ?_
  rw [(hx.same hrun rfl).1]
  exact hp

theorem cacheReleaseLoop_reads (cache : Cache) (i n : Nat) : Reads (cacheReleaseLoop cache i n) := by
  induction n generalizing i with
  | zero => exact .pure ()
  | succ n ih =>
      rw [cacheReleaseLoop]
      cases cache.cells[i]? with
      | none => exact .throw _
      | some cell => exact (Reads.pure ()).bind fun _ => ih (i + 1)

theorem cacheRelease_triple {m : Mem} (cache : Cache) :
    Triple (Stands file f c m) (cacheRelease cache) (fun _ => Stands file f c m) := by
  rw [cacheRelease]
  refine Triple.ite (fun _ => Triple.pure fun _ hp => hp) fun _ => ?_
  have hfree : Triple (Stands file f c m) (note (.xfreeCells cache.cacheHeader))
      (fun _ => Stands file f c m) :=
    Triple.of_run (fun _ => rfl) fun p hp => ⟨hp.sees.note rfl, hp.mem⟩
  exact (onCache_reads (.load _)).bind fun n => (onCache_reads (cacheReleaseLoop_reads cache 0 n)).bind
    fun _ => hfree.bind fun _ => Triple.pure fun _ hp => hp

/-- What the file is when a mapping of it at `ptr` is given up: if there is one, it leaves its bytes. -/
def Unmapped (f : Option File) (m : Mem) (ptr length : Nat) (f' : Option File) : Prop :=
  (ptr = 0 → f' = f) ∧ ∀ g, ptr ≠ 0 → f = some g → ∃ g', f' = some g' ∧ g'.size = g.size ∧
    (m.shift ptr).Agree g'.bytes 0 (min length g.size)

theorem msysMunmap_triple (hos : os.OnDisk file offset) {m : Mem} {ptr : Nat} (hptr : ptr ≠ 0)
    (length : Nat) : Triple (Stands file f c m) (msysMunmap os ptr length)
      (fun ret p => ret = 0 → ∃ f', Unmapped f m ptr length f' ∧ Sees file f' c p) := by
  refine Triple.of_run (fun _ => rfl) fun p hp hret => ?_
  obtain ⟨hsees, rfl⟩ := hp
  refine ⟨_, ⟨fun h => absurd h hptr, fun g _ hg => ?_⟩, hsees.step rfl rfl⟩
  exact hos.munmap ptr length (p.store.mem.shift ptr) p.sys g (hsees.file.trans hg) hret

theorem cacheManagerUnmap_triple (hos : os.OnDisk file offset) {m : Mem} (cacheManager : CacheManager) :
    Triple (Stands file f c m) (cacheManagerUnmap os cacheManager) (fun closed p => ∃ f',
      (closed.ptr = 0 ∧ Unmapped f m cacheManager.ptr cacheManager.memorySize f') ∧
        Sees file f' c p) := by
  rw [cacheManagerUnmap]
  refine Triple.ite (fun hptr => ?_) fun hptr => Triple.pure fun p hp => ?_
  · refine (msysMunmap_triple hos hptr _).bind fun ret => (sysAlways_holds (ret = 0)).bind fun _ => ?_
    refine Triple.pure fun p hp => ?_
    obtain ⟨f', hunmapped, hsees⟩ := hp.2 (of_decide_eq_true hp.1)
    exact ⟨f', ⟨rfl, hunmapped⟩, hsees⟩
  · have hzero : cacheManager.ptr = 0 := Decidable.not_not.1 hptr
    exact ⟨f, ⟨hzero, fun _ => rfl, fun g hne => absurd hzero hne⟩, hp.sees⟩

theorem cacheManagerClose_triple (hos : os.OnDisk file offset) (cacheManager : CacheManager) :
    Triple (Sees file f c) (cacheManagerClose os cacheManager)
      (fun closed p => closed.ptr = cacheManager.ptr ∧ Sees file f c p) := by
  rw [cacheManagerClose]
  refine Triple.ite (fun _ => ?_) fun _ => Triple.pure fun _ hp => ⟨rfl, hp⟩
  exact (msysClose_triple hos _).bind fun ret => (sysAlways_triple (ret = 0)).bind fun _ =>
    Triple.pure fun _ hp => ⟨rfl, hp⟩

/-- Releasing a cache manager leaves in the file what was in the mapping. -/
theorem cacheManagerRelease_triple (hos : os.OnDisk file offset) {m : Mem}
    (cacheManager : CacheManager) : Triple (Stands file f c m) (cacheManagerRelease os cacheManager)
      (fun closed p => closed.ptr = 0 ∧ ∃ f',
        Unmapped f m cacheManager.ptr cacheManager.memorySize f' ∧ Sees file f' c p) := by
  rw [cacheManagerRelease]
  refine (cacheRelease_triple cacheManager.cache).bind fun cache => ?_
  refine (cacheManagerUnmap_triple hos { cacheManager with cache := cache }).bind fun unmapped => ?_
  -- closing the descriptor leaves what unmapping has left
  refine Triple.of_exists fun f' => Triple.of_fact fun h => ?_
  refine (cacheManagerClose_triple hos unmapped).weaken (fun _ hp => hp) fun closed p hp => ?_
  exact ⟨hp.1.trans h.1, f', h.2, hp.2⟩

/-- A cache manager with nothing mapped leaves the file alone. -/
theorem cacheManagerRelease_unmapped (hos : os.OnDisk file offset) {cacheManager : CacheManager}
    (hptr : cacheManager.ptr = 0) : Triple (Sees file f c) (cacheManagerRelease os cacheManager)
      (fun closed p => closed.ptr = 0 ∧ Sees file f c p) := by
  intro p closed p' hp hrun
  obtain ⟨hclosed, f', hunmapped, hsees⟩ :=
    cacheManagerRelease_triple hos cacheManager p closed p' ⟨hp, rfl⟩ hrun
  rw [hunmapped.1 hptr] at hsees
  exact ⟨hclosed, hsees⟩

/-- What an attempt to open a cache of `n` cells has come to. -/
inductive Opens (file : σ → Option File) (f : Option File) (c n : Nat) :
    Int × CacheManager → Process σ → Prop where
  | failed {ret : Int} {cacheManager : CacheManager} {p : Process σ} (hret : ret ≠ 0)
      (hptr : cacheManager.ptr = 0) (h : Leaves file f c (fun _ => True) p) :
      Opens file f c n (ret, cacheManager) p
  | opened {cacheManager : CacheManager} {p : Process σ} {g : File} {c' : Nat}
      (hbecame : Became f c (some g) c') (hsees : Sees file (some g) c' p)
      (h : Attached g n cacheManager p) : Opens file f c n (0, cacheManager) p

/-- A cache manager that has the file `g` open, to map it as a cache of `n` cells. -/
structure Opening (g : File) (n : Nat) (cacheManager : CacheManager) : Prop where
  slots : 1 ≤ n
  unmapped : cacheManager.ptr = 0
  size : cacheManager.memorySize = (n + 1) * cacheCellSize
  length : g.size = cacheManager.memorySize

/-- The file `g` is mapped at `ptr`. -/
structure Shows (file : σ → Option File) (g : File) (c ptr : Nat) (p : Process σ) : Prop where
  sees : Sees file (some g) c p
  nonzero : ptr ≠ 0
  bytes : g.bytes.Agree (p.store.mem.shift ptr) 0 g.size

theorem cacheManagerMapped_triple {g : File} {n c' ptr : Nat} {cacheManager : CacheManager}
    (hbecame : Became f c (some g) c') (h : Opening g n cacheManager) :
    Triple (Shows file g c' ptr) (cacheManagerMapped cacheManager ptr) (Opens file f c n) := by
  have hslots : cacheManager.memorySize / cacheCellSize = n + 1 := by rw [h.size, slots_eq]
  have hnote : Triple (Shows file g c' ptr) (note (.cacheInit ptr)) (fun _ => Shows file g c' ptr) :=
    Triple.of_run (fun _ => rfl) fun p hp => ⟨hp.sees.note rfl, hp.nonzero, hp.bytes⟩
  have hcache : Triple (Shows file g c' ptr) (onCache (cacheInit ptr cacheManager.memorySize))
      (fun cache => Opens file f c n (0, { cacheManager with ptr := ptr, cache := cache })) := by
    refine onCache_triple fun p cache s hp hinit => ?_
    obtain ⟨s', hrun, -⟩ := cacheInit_spec ptr h.slots hslots p.store
    rw [hinit, EStateM.Result.ok.injEq] at hrun
    have hbytes := hp.bytes
    rw [h.length] at hbytes
    exact .opened hbecame ⟨hp.sees.file, hp.sees.created⟩
      ⟨hrun.1, hp.nonzero, h.size, h.length, p.store, hbytes, hinit⟩
  exact hnote.bind fun _ => hcache.bind fun cache => Triple.pure fun p hp => hp

/-- The jump to `err`. -/
theorem cacheManagerErr_triple (hos : os.OnDisk file offset) {g : Option File} {n c' : Nat}
    {cacheManager : CacheManager} (hbecame : Became f c g c') (hptr : cacheManager.ptr = 0) :
    Triple (Sees file g c') (cacheManagerErr os cacheManager) (Opens file f c n) := by
  rw [cacheManagerErr]
  refine (cacheManagerRelease_unmapped hos hptr).bind fun closed => Triple.pure fun p hp => ?_
  exact .failed (by decide) hp.1 ⟨(g, c'), ⟨hbecame, trivial⟩, hp.2⟩

/-- Both attempts to map the file go on alike. -/
theorem cacheManagerMap_rule {P : Process σ → Prop} {S : Mapping → Process σ → Prop}
    {Q : Int × CacheManager → Process σ → Prop} {cacheManager : CacheManager}
    (hmmap : ∀ sync, Triple P (msysMmap os cacheManager.memorySize sync cacheManager.fd) S)
    (hmapped : ∀ ptr bytes dax, Triple (S (.mapped ptr bytes))
      (cacheManagerMapped { cacheManager with dax := dax } ptr) Q)
    (hfailed : ∀ mapping p, S mapping p → P p)
    (herr : Triple P (cacheManagerErr os cacheManager) Q) :
    Triple P (cacheManagerMap os cacheManager) Q := by
  rw [cacheManagerMap]
  refine (hmmap true).bind fun mapping => ?_
  cases mapping with
  | mapped ptr bytes => exact hmapped ptr bytes true
  | failed eopnotsupp =>
      refine Triple.ite (fun _ => ?_) fun _ => herr.pre (hfailed _)
      refine ((hmmap false).pre (hfailed _)).bind fun mapping => ?_
      cases mapping with
      | mapped ptr bytes => exact hmapped ptr bytes cacheManager.dax
      | failed _ => exact herr.pre (hfailed _)

theorem cacheManagerMap_triple (hos : os.OnDisk file offset) {g : File} {n c' : Nat}
    {cacheManager : CacheManager} (hbecame : Became f c (some g) c') (h : Opening g n cacheManager) :
    Triple (Sees file (some g) c') (cacheManagerMap os cacheManager) (Opens file f c n) := by
  refine cacheManagerMap_rule (fun sync => msysMmap_triple hos sync cacheManager.fd h.length)
    (fun ptr bytes dax => ?_) (fun _ _ hp => hp.1) (cacheManagerErr_triple hos hbecame h.unmapped)
  have hopening : Opening g n { cacheManager with dax := dax } :=
    ⟨h.slots, h.unmapped, h.size, h.length⟩
  refine (cacheManagerMapped_triple hbecame hopening).pre fun p hp => ?_
  obtain ⟨hptr, hagree⟩ := hp.2 ptr bytes rfl
  exact ⟨hp.1, hptr, h.length ▸ hagree⟩

/-- Opening a cache of `n` cells on a new cache manager. -/
theorem cacheManagerOpenCache_triple (hos : os.OnDisk file offset) {cacheSize : Nat}
    (hsize : cacheManagerMb ≤ cacheSize) : Triple (Sees file f c)
      (cacheManagerOpenCache os cacheManagerInit cacheSize)
      (Opens file f c (cacheSize / cacheManagerMb)) := by
  have hcheck : Triple (Sees file f c) (cacheManagerCheckFile os (cacheManagerFilesize cacheSize)) _ :=
    cacheManagerCheckFile_triple hos (cacheSize / cacheManagerMb + 1)
  rw [cacheManagerOpenCache]
  refine hcheck.bind fun ret => Triple.ite (fun hret => ?_) fun hret => ?_
  · refine Triple.pure fun p hp => ?_
    obtain ⟨g, ⟨hbecame, -⟩, hsees⟩ := hp
    exact .failed hret rfl ⟨g, ⟨hbecame, trivial⟩, hsees⟩
  · refine Triple.of_exists fun g => Triple.of_fact fun hg => ?_
    refine (msysOpen_triple hos).bind fun fd => Triple.ite (fun hfd => ?_) fun hfd => ?_
    · exact Triple.pure fun p hp => .failed (by omega) rfl ⟨g, ⟨hg.1, trivial⟩, hp⟩
    · obtain ⟨g, c'⟩ := g
      obtain ⟨g, rfl, hlength⟩ := Option.map_eq_some_iff.1 (hg.2 (Decidable.not_not.1 hret))
      have hslots : 1 ≤ cacheSize / cacheManagerMb := Nat.div_pos hsize (by decide)
      exact cacheManagerMap_triple hos hg.1 ⟨hslots, rfl, rfl, hlength⟩

/-! ## A file of the required size -/

theorem cacheManagerCheckFile_keeps (hos : os.OnDisk file offset) {size : Nat}
    (hsize : f.map File.size = some size) :
    Triple (Sees file f c) (cacheManagerCheckFile os size) (fun _ => Sees file f c) := by
  rw [cacheManagerCheckFile]
  refine (msysStat_triple hos).bind fun found => Triple.of_fact fun hfound => ?_
  rw [hfound, hsize]
  exact Triple.ite (fun hne => absurd rfl hne) fun _ => Triple.pure fun _ hp => hp

theorem cacheManagerMapped_keeps (cacheManager : CacheManager) (ptr : Nat) :
    Triple (Sees file f c) (cacheManagerMapped cacheManager ptr) (fun _ => Sees file f c) := by
  rw [cacheManagerMapped]
  have hcache : Triple (Sees file f c) (onCache (cacheInit ptr cacheManager.memorySize))
      (fun _ => Sees file f c) := onCache_triple fun p _ _ hp _ => ⟨hp.file, hp.created⟩
  exact (note_triple rfl).bind fun _ => hcache.bind fun _ => Triple.pure fun _ hp => hp

theorem cacheManagerMap_keeps (hos : os.OnDisk file offset) {g : File} {cacheManager : CacheManager}
    (hptr : cacheManager.ptr = 0) (hsize : g.size = cacheManager.memorySize) :
    Triple (Sees file (some g) c) (cacheManagerMap os cacheManager)
      (fun _ => Sees file (some g) c) := by
  refine cacheManagerMap_rule (fun sync => msysMmap_triple hos sync cacheManager.fd hsize)
    (fun ptr bytes dax => (cacheManagerMapped_keeps _ ptr).pre fun _ hp => hp.1) (fun _ _ hp => hp.1) ?_
  rw [cacheManagerErr]
  exact (cacheManagerRelease_unmapped hos hptr).bind fun _ => Triple.pure fun _ hp => hp.2

/-- Opening keeps a file of the size it requires. -/
theorem cacheManagerOpenCache_keeps (hos : os.OnDisk file offset) {cacheSize : Nat} {g : File}
    (hsize : g.size = cacheManagerFilesize cacheSize) : Triple (Sees file (some g) c)
      (cacheManagerOpenCache os cacheManagerInit cacheSize) (fun _ => Sees file (some g) c) := by
  have hfound : (some g).map File.size = some (cacheManagerFilesize cacheSize) := congrArg some hsize
  rw [cacheManagerOpenCache]
  refine (cacheManagerCheckFile_keeps hos hfound).bind fun ret =>
    Triple.ite (fun _ => Triple.pure fun _ hp => hp) fun _ => (msysOpen_triple hos).bind fun fd =>
      Triple.ite (fun _ => Triple.pure fun _ hp => hp) fun _ => ?_
  exact cacheManagerMap_keeps hos rfl hsize

end

end Theo
