import Theo.Lib.Ledger
import Theo.Model.Cache

set_option autoImplicit false

/-! # System calls

`msys.c` hands each call to the operating system, which is the parameter `Msys`: for each call, what it
returns and the state it leaves the system in. A process carries that state, the cache memory, and a
record of the calls it has made with their results. -/

namespace Theo

open ByteMachine

/-- What `msys_mmap` returns: an address, with the bytes that the mapping shows there, or `MAP_FAILED`
with whether `errno` is `EOPNOTSUPP`. -/
inductive Mapping where
  | mapped (ptr : Nat) (bytes : Nat → UInt8)
  | failed (eopnotsupp : Bool)

/-- The operating system. There is one file. `stat` is its size if the call returns 0; `openFile` is
told whether `O_CREAT` is set, `mmap` the length and whether `MAP_SYNC` is set, and `munmap` the bytes
of the mapping, which are shared with the file. -/
structure Msys (σ : Type) where
  stat : σ → Option Nat × σ
  unlink : σ → Int × σ
  openFile : Bool → σ → Int × σ
  write : Int → List UInt8 → σ → Int × σ
  fsync : Int → σ → Int × σ
  close : Int → σ → Int × σ
  mmap : Nat → Bool → Int → σ → Mapping × σ
  munmap : Nat → Nat → (Nat → UInt8) → σ → Int × σ

/-- A call of a process, with its result. The last four are not system calls: memory of `xmalloc` is
acquired or released, or something in a mapping is accessed. -/
inductive SysCall where
  | stat (size : Option Nat)
  | unlink (ret : Int)
  | openFile (create : Bool) (fd : Int)
  | write (fd : Int) (count : Nat) (ret : Int)
  | fsync (fd ret : Int)
  | close (fd ret : Int)
  | mmap (length : Nat) (fd : Int) (mapping : Mapping)
  | munmap (ptr length : Nat) (ret : Int)
  | xmallocBuffer
  | xfreeBuffer
  | cacheInit (ptr : Nat)
  | xfreeCells (cacheHeader : Nat)

structure Process (σ : Type) where
  sys : σ
  calls : List SysCall
  store : Store

/-- The code that calls the operating system. -/
abbrev Sys (σ α : Type) := EStateM Abort (Process σ) α

section

variable {σ α β : Type}

def Process.note (p : Process σ) (call : SysCall) : Process σ := { p with calls := p.calls ++ [call] }

/-- A call is made and recorded. -/
def sysCall (call : σ → α × σ) (record : α → SysCall) : Sys σ α := fun p =>
  .ok (call p.sys).1 ({ p with sys := (call p.sys).2 }.note (record (call p.sys).1))

def note (call : SysCall) : Sys σ Unit := fun p => .ok () (p.note call)

def msysStat (os : Msys σ) : Sys σ (Option Nat) := sysCall os.stat .stat

def msysUnlink (os : Msys σ) : Sys σ Int := sysCall os.unlink .unlink

def msysOpen (os : Msys σ) (create : Bool) : Sys σ Int :=
  sysCall (os.openFile create) (.openFile create)

def msysWrite (os : Msys σ) (fd : Int) (bytes : List UInt8) : Sys σ Int :=
  sysCall (os.write fd bytes) (.write fd bytes.length)

def msysFsync (os : Msys σ) (fd : Int) : Sys σ Int := sysCall (os.fsync fd) (.fsync fd)

def msysClose (os : Msys σ) (fd : Int) : Sys σ Int := sysCall (os.close fd) (.close fd)

/-- The memory with the mapped bytes. -/
def mapBytes (m : Mem) (ptr length : Nat) (bytes : Nat → UInt8) : Mem :=
  fun a => if ptr ≤ a ∧ a < ptr + length then bytes (a - ptr) else m a

/-- The mapped bytes are those at the address. -/
theorem mapBytes_shift (m : Mem) (ptr length : Nat) (bytes : Mem) :
    bytes.Agree ((mapBytes m ptr length bytes).shift ptr) 0 length := by
  intro a _ ha
  rw [Mem.shift, mapBytes, if_pos ⟨by omega, by omega⟩, Nat.add_sub_cancel_left]

/-- The memory behind a call of `mmap`. -/
def Mapping.store (mapping : Mapping) (length : Nat) (s : Store) : Store :=
  match mapping with
  | .mapped ptr bytes => { s with mem := mapBytes s.mem ptr length bytes }
  | .failed _ => s

def msysMmap (os : Msys σ) (length : Nat) (sync : Bool) (fd : Int) : Sys σ Mapping := fun p =>
  let mapping := (os.mmap length sync fd p.sys).1
  .ok mapping ({ p with
    sys := (os.mmap length sync fd p.sys).2
    store := mapping.store length p.store }.note (.mmap length fd mapping))

def msysMunmap (os : Msys σ) (ptr length : Nat) : Sys σ Int := fun p =>
  let result := os.munmap ptr length (fun i => p.store.mem (ptr + i)) p.sys
  .ok result.1 ({ p with sys := result.2 }.note (.munmap ptr length result.1))

/-- `ALWAYS` in code that calls the system. -/
def sysAlways (b : Bool) : Sys σ Unit := if b then pure () else throw .always

/-- Code that acts on the cache memory only. -/
def onCache (x : Act α) : Sys σ α := fun p =>
  match x p.store with
  | .ok a s => .ok a { p with store := s }
  | .error e s => .error e { p with store := s }

/-! ## Running -/

theorem sys_bind_ok {p p' : Process σ} {x : Sys σ α} {a : α} (h : x p = .ok a p') (f : α → Sys σ β) :
    (x >>= f) p = f a p' := by
  show EStateM.bind x f p = f a p'
  rw [EStateM.bind, h]

theorem sys_bind_error {p p' : Process σ} {x : Sys σ α} {e : Abort} (h : x p = .error e p')
    (f : α → Sys σ β) : (x >>= f) p = .error e p' := by
  show EStateM.bind x f p = .error e p'
  rw [EStateM.bind, h]

theorem sysAlways_bind {b : Bool} (h : b = true) (f : Unit → Sys σ β) (p : Process σ) :
    ((sysAlways b : Sys σ Unit) >>= f) p = f () p := by
  subst h
  rfl

theorem onCache_ok {p : Process σ} {x : Act α} {a : α} {s : Store} (h : x p.store = .ok a s) :
    onCache x p = .ok a { p with store := s } := by
  rw [onCache, h]

end

end Theo
