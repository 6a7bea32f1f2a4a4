import Theo.Lib.Machine

set_option autoImplicit false

/-! # Structures in the slab

The C structures that live in the cache memory, as byte layouts: where each field stands, and how
a structure is read from and written to memory. Sizes and bit positions are those of the x86-64
ABI the library is built for (little-endian, bit fields packed from the low bit up).

| structure               | bytes | fields                                                     |
|-------------------------|-------|------------------------------------------------------------|
| `cell_body_entry`       | 36    | `checksum`, word of `free_space:1 top_entry:1 size:15 previous_size:15` |
| `cell_dir_entry`        | 36    | `checksum`, word of `offset:31 set:1`                      |
| `cell_dir_block`        | 112   | three `cell_dir_entry`, word of `entry_count:4 overflow_count:12` |
| `cell_dir`              | 28676 | 256 blocks, word of `overflow_count:16`                    |
| `cell_header`           | 28704 | `magic`, `entry_count`, `byte_count`, `cell_ic`, `cell_body`, `cell_dir` | -/

namespace Theo

open ByteMachine

/-! ## The program's monad -/

/-- Where in the program an event comes from: the structure a store goes to (for the overflow
directory also which operation stores), or the call that a mark notes with its operands. -/
inductive Site where
  | header
  | integrity
  | bodyOffsets
  | body
  | dir
  | overflowAdd
  | overflowRemove
  | cache
  /-- `cell_body_free_space` was called and returned `result`. -/
  | freeSpace (topEntryOffset overflowCount slabSize result : Nat)
  /-- The merge loop read the entry header at `ptr`. -/
  | visit (ptr : Nat)
  /-- A streamer cut the chunk `buffer`. -/
  | chunk (checksum buffer : List UInt8)
  | hasChunk (checksum : List UInt8)
  | addChunk (checksum buffer : List UInt8)

/-- Why a call does not return: a failed `ALWAYS`, a loop that never ends, an index outside the
array of cells. -/
inductive Abort where
  | always
  | diverges
  | outOfBounds
deriving DecidableEq

/-- The library's code: it acts on the cache memory and may abort. -/
abbrev Act (α : Type) := Prog Abort Site α

/-- The memory and the log of stores the library works on. -/
abbrev Store := Machine Site

/-- `ALWAYS(X)`: a live assertion. -/
def always (b : Bool) : Act Unit := check .always b

/-! ## Fixed-width arithmetic -/

/-- Reduction to `uint32_t`. -/
def u32 (n : Nat) : Nat := n % 2 ^ 32

/-- Subtraction in `uint32_t`. -/
def sub32 (a b : Nat) : Nat := (a + 2 ^ 32 - b % 2 ^ 32) % 2 ^ 32

/-- A word read as `int32_t`. -/
def int32 (w : Nat) : Int := if w < 2 ^ 31 then w else (w : Int) - 2 ^ 32

theorem u32_of_lt {n : Nat} (h : n < 2 ^ 32) : u32 n = n := Nat.mod_eq_of_lt h

theorem sub32_of_le {a b : Nat} (ha : a < 2 ^ 32) (h : b ≤ a) : sub32 a b = a - b := by
  unfold sub32
  omega

/-! ## Checksums -/

/-- `struct checksum`: 32 bytes. -/
structure Checksum where
  bytes : List UInt8
  length_eq : bytes.length = 32
deriving DecidableEq

theorem Checksum.ext {c c' : Checksum} (h : c.bytes = c'.bytes) : c = c' := by
  cases c
  cases c'
  cases h
  rfl

def loadChecksum (m : Mem) (ptr : Nat) : Checksum := ⟨m.read ptr 32, by simp⟩

theorem loadChecksum_congr {m m' : Mem} {ptr : Nat} (h : m.Agree m' ptr (ptr + 32)) :
    loadChecksum m' ptr = loadChecksum m ptr := Checksum.ext h.read

theorem loadChecksum_write (m : Mem) (ptr : Nat) (c : Checksum) :
    loadChecksum (m.write ptr c.bytes) ptr = c := by
  apply Checksum.ext
  have h := m.read_write_self ptr c.bytes
  rwa [c.length_eq] at h

/-! ## Body entries -/

@[simp] def sizeofCellBodyEntry : Nat := 36
@[simp] def sizeofCellDirEntry : Nat := 36
@[simp] def sizeofCellDirBlock : Nat := 112
@[simp] def sizeofCellDir : Nat := 28676
@[simp] def sizeofCellHeader : Nat := 28704

/-- The bit fields of `struct cell_body_entry`. -/
structure EntryBits where
  freeSpace : Nat
  topEntry : Nat
  size : Nat
  previousSize : Nat
deriving DecidableEq

/-- The word of bit fields of the entry at `ptr`. -/
def entryBits (m : Mem) (ptr : Nat) : EntryBits :=
  let w := m.load32 (ptr + 32)
  ⟨getBits w 0 1, getBits w 1 1, getBits w 2 15, getBits w 17 15⟩

/-- A bit field of `struct cell_body_entry`. -/
inductive EntryField where
  | freeSpace
  | topEntry
  | size
  | previousSize

def EntryField.lo : EntryField → Nat
  | .freeSpace => 0
  | .topEntry => 1
  | .size => 2
  | .previousSize => 17

def EntryField.width : EntryField → Nat
  | .freeSpace => 1
  | .topEntry => 1
  | .size => 15
  | .previousSize => 15

/-- A bit-field assignment, seen on the decoded fields. -/
def EntryBits.assign (b : EntryBits) (v : Nat) : EntryField → EntryBits
  | .freeSpace => { b with freeSpace := v % 2 }
  | .topEntry => { b with topEntry := v % 2 }
  | .size => { b with size := v % 32768 }
  | .previousSize => { b with previousSize := v % 32768 }

/-- `cell_body_entry->field = v` on the entry at `ptr`. -/
def assignField (f : EntryField) (ptr v : Nat) : Act Unit :=
  storeBits .body (ptr + 32) f.lo f.width v

/-- The machine after a bit-field assignment. -/
abbrev assigned (s : Store) (f : EntryField) (ptr v : Nat) : Store :=
  s.storeBits .body (ptr + 32) f.lo f.width v

theorem entryBits_congr {m m' : Mem} {ptr : Nat} (h : m.Agree m' (ptr + 32) (ptr + 36)) :
    entryBits m' ptr = entryBits m ptr := by
  unfold entryBits
  rw [h.load32]

theorem entryBits_assigned (s : Store) (f : EntryField) (ptr v : Nat) :
    entryBits (assigned s f ptr v).mem ptr = (entryBits s.mem ptr).assign v f := by
  have hw : f.lo + f.width ≤ 32 := by cases f <;> decide
  unfold entryBits
  rw [Machine.load32_storeBits _ _ _ _ hw]
  cases f <;>
    simp [EntryField.lo, EntryField.width, EntryBits.assign, getBits_setBits_self,
      getBits_setBits_above, getBits_setBits_below]

theorem assigned_agree (s : Store) (f : EntryField) (ptr v : Nat) {lo hi : Nat}
    (h : hi ≤ ptr + 32 ∨ ptr + 36 ≤ lo) : s.mem.Agree (assigned s f ptr v).mem lo hi :=
  s.storeBits_agree _ _ _ _ _ (by omega)

/-! ## Directory entries -/

/-- `struct cell_dir_entry`. -/
structure CellDirEntry where
  checksum : Checksum
  offset : Nat
  set : Bool
  offset_lt : offset < 2 ^ 31
deriving DecidableEq

theorem CellDirEntry.ext {e e' : CellDirEntry} (hc : e.checksum = e'.checksum)
    (ho : e.offset = e'.offset) (hs : e.set = e'.set) : e = e' := by
  cases e
  cases e'
  cases hc
  cases ho
  cases hs
  rfl

/-- The 36 bytes of a directory entry. -/
def CellDirEntry.bytes (e : CellDirEntry) : List UInt8 :=
  e.checksum.bytes ++ Mem.bytes32 (e.offset + 2 ^ 31 * e.set.toNat)

def loadDirEntry (m : Mem) (ptr : Nat) : CellDirEntry where
  checksum := loadChecksum m ptr
  offset := getBits (m.load32 (ptr + 32)) 0 31
  set := getBits (m.load32 (ptr + 32)) 31 1 == 1
  offset_lt := Nat.mod_lt _ (by decide)

@[simp]
theorem CellDirEntry.bytes_length (e : CellDirEntry) : e.bytes.length = 36 := by
  simp [CellDirEntry.bytes, e.checksum.length_eq]

/-- A directory entry reads back as it was stored. -/
theorem loadDirEntry_write (m : Mem) (ptr : Nat) (e : CellDirEntry) :
    loadDirEntry (m.write ptr e.bytes) ptr = e := by
  have hlen := e.checksum.length_eq
  have hlt := e.offset_lt
  have hset : e.set.toNat ≤ 1 := Bool.toNat_le e.set
  have hword : (m.write ptr e.bytes).load32 (ptr + 32) = e.offset + 2 ^ 31 * e.set.toNat := by
    rw [CellDirEntry.bytes, Mem.write_append, hlen, Mem.load32_write_self]
    omega
  apply CellDirEntry.ext
  · show loadChecksum _ ptr = e.checksum
    have hframe : (m.write ptr e.checksum.bytes).Agree (m.write ptr e.bytes) ptr (ptr + 32) := by
      rw [CellDirEntry.bytes, Mem.write_append, hlen]
      exact Mem.write_agree _ _ _ (Or.inl (by omega))
    rw [loadChecksum_congr hframe, loadChecksum_write]
  · simp only [loadDirEntry, hword, getBits]
    omega
  · simp only [loadDirEntry, hword, getBits]
    cases e.set <;> simp <;> omega

theorem loadDirEntry_congr {m m' : Mem} {ptr : Nat} (h : m.Agree m' ptr (ptr + 36)) :
    loadDirEntry m' ptr = loadDirEntry m ptr := by
  have hword : m'.load32 (ptr + 32) = m.load32 (ptr + 32) := (h.mono (by omega) (by omega)).load32
  apply CellDirEntry.ext
  · exact loadChecksum_congr (h.mono (by omega) (by omega))
  · simp only [loadDirEntry, hword]
  · simp only [loadDirEntry, hword]

end Theo
