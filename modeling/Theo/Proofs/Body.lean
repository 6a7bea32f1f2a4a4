import Theo.Proofs.Header
import Theo.Ring.Basic

set_option autoImplicit false

/-! # The body of a cell

`Seg m ptr prev es`: the entries `es` lie back to back from `ptr` on, each with the size of the one
before it, and the chunks among them with their checksum and data. `CellRep m slab r` is the whole
cell. While an insertion is under way some bytes at the cut belong to no entry; `OpenRep` is a cell
with such a gap. -/

namespace Theo

open ByteMachine BucketIndex

/-- The cell whose slab of `CACHE_CELL_SIZE` bytes starts at `slab`. -/
def cellAt (slab : Nat) : Cell := ⟨slab + 1019872, slab, 1048576⟩

/-! ## Entries -/

structure EntryAt (m : Mem) (ptr prev : Nat) (e : Entry) : Prop where
  bits : entryBits m ptr = ⟨e.free.toNat, 0, e.size, prev⟩
  chunk : e.free = false → loadChecksum m ptr = e.checksum ∧ m.read (ptr + 36) e.size = e.data

/-- The top entry: free, empty, and marked. -/
def TopAt (m : Mem) (ptr prev : Nat) : Prop := entryBits m ptr = ⟨1, 1, 0, prev⟩

def Seg (m : Mem) : Nat → Nat → List Entry → Prop
  | _, _, [] => True
  | ptr, prev, e :: es => EntryAt m ptr prev e ∧ Seg m (ptr + e.span) e.size es

section Entries

variable {m m' : Mem} {ptr prev : Nat} {e : Entry} {es xs ys : List Entry}

theorem EntryAt.congr (h : EntryAt m ptr prev e) (hm : m.Agree m' ptr (ptr + e.span)) :
    EntryAt m' ptr prev e where
  bits := by
    rw [Entry.span] at hm
    rw [entryBits_congr (hm.mono (by omega) (by omega)), h.bits]
  chunk hlive := by
    rw [Entry.span] at hm
    obtain ⟨hc, hdata⟩ := h.chunk hlive
    rw [loadChecksum_congr (hm.mono (by omega) (by omega)),
      (hm.mono (by omega) (by omega) : m.Agree m' (ptr + 36) (ptr + 36 + e.size)).read]
    exact ⟨hc, hdata⟩

theorem TopAt.congr (h : TopAt m ptr prev) (hm : m.Agree m' (ptr + 32) (ptr + 36)) :
    TopAt m' ptr prev := by
  rw [TopAt, entryBits_congr hm]
  exact h

theorem Seg.congr (h : Seg m ptr prev es) (hm : m.Agree m' ptr (ptr + span es)) :
    Seg m' ptr prev es := by
  induction es generalizing ptr prev with
  | nil => trivial
  | cons e es ih =>
      rw [span_cons] at hm
      exact ⟨h.1.congr (hm.mono (by omega) (by omega)), ih h.2 (hm.mono (by omega) (by omega))⟩

theorem seg_append : Seg m ptr prev (xs ++ ys) ↔
    Seg m ptr prev xs ∧ Seg m (ptr + span xs) (prevOf prev xs) ys := by
  induction xs generalizing ptr prev with
  | nil => simp [Seg, prevOf]
  | cons x xs ih =>
      rw [List.cons_append, Seg, Seg, ih, span_cons, prevOf, Nat.add_assoc, and_assoc]

theorem EntryAt.free (h : EntryAt m ptr prev e) : cellBodyEntryFree m ptr = e.free := by
  rw [cellBodyEntryFree, h.bits]
  cases e.free
  · rfl
  · rfl

theorem EntryAt.top (h : EntryAt m ptr prev e) : cellBodyEntryTop m ptr = false := by
  rw [cellBodyEntryTop, h.bits]
  rfl

theorem TopAt.top (h : TopAt m ptr prev) : cellBodyEntryTop m ptr = true := by
  rw [cellBodyEntryTop, h]
  rfl

/-- Rewriting the back link of the entry at `ptr`. -/
theorem EntryAt.relink (h : EntryAt m ptr prev e) {v : Nat}
    (hbits : entryBits m' ptr = { entryBits m ptr with previousSize := v })
    (hchecksum : m.Agree m' ptr (ptr + 32)) (hdata : m.Agree m' (ptr + 36) (ptr + e.span)) :
    EntryAt m' ptr v e where
  bits := by rw [hbits, h.bits]
  chunk hlive := by
    rw [Entry.span] at hdata
    obtain ⟨hc, hd⟩ := h.chunk hlive
    rw [loadChecksum_congr hchecksum,
      (hdata.mono (by omega) (by omega) : m.Agree m' (ptr + 36) (ptr + 36 + e.size)).read]
    exact ⟨hc, hd⟩

end Entries

/-! ## Cells -/

/-- The bytes of the slab are those of the cell `r`. -/
structure CellRep (m : Mem) (slab : Nat) (r : Ring) : Prop where
  body : Seg m slab 0 r.entries
  top : TopAt m (slab + r.top) (prevOf 0 r.entries)
  topOffset : topEntryOffset m (slab + 1019892) = r.top
  nextOffset : nextEntryOffset m (slab + 1019892) = r.next
  header : HeaderRep m (slab + 1019872) (liveCount r.entries) (liveBytes r.entries) r.dir

/-- A cell under change: the entries `below`, then `gap` bytes, then the entries `rest` up to the
top, the first of which records `prev` as the size before it. The header counts `c` entries of `d`
bytes besides those of `rest`. -/
structure OpenRep (m : Mem) (slab next : Nat) (below : List Entry) (gap prev : Nat)
    (rest : List Entry) (c d : Nat) (dir : Dir) : Prop where
  belowSeg : Seg m slab 0 below
  restSeg : Seg m (slab + (span below + gap)) prev rest
  top : TopAt m (slab + (span below + gap + span rest)) (prevOf prev rest)
  topOffset : topEntryOffset m (slab + 1019892) = span below + gap + span rest
  nextOffset : nextEntryOffset m (slab + 1019892) = next
  header : HeaderRep m (slab + 1019872) (c + liveCount rest) (d + liveBytes rest) dir
  room : span below + gap + span rest + 36 * dir.stack.length ≤ 1019836
  count_le : c ≤ span below + gap
  bytes_le : d ≤ span below + gap

section Cells

variable {m m' : Mem} {slab next : Nat} {below rest : List Entry} {gap prev c d : Nat} {dir : Dir}

/-- A cell with a gap of no bytes between two of its entries. -/
theorem CellRep.opened_at {r : Ring} {xs ys : List Entry} (h : CellRep m slab r)
    (hsplit : r.entries = xs ++ ys) (hroom : r.top + 36 * r.dir.stack.length ≤ 1019836) :
    OpenRep m slab r.next xs 0 (prevOf 0 xs) ys (liveCount xs) (liveBytes xs) r.dir := by
  have hbody := h.body
  have htop := h.top
  have htopOffset := h.topOffset
  have hheader := h.header
  rw [hsplit, seg_append] at hbody
  simp only [Ring.top, hsplit, span_append, prevOf_append] at htop htopOffset hroom
  rw [hsplit, liveCount_append, liveBytes_append] at hheader
  have hbytes := liveBytes_le_span xs
  exact ⟨hbody.1, hbody.2, htop, htopOffset, h.nextOffset, hheader, hroom, by omega, by omega⟩

theorem CellRep.opened {r : Ring} (h : CellRep m slab r)
    (hroom : r.top + 36 * r.dir.stack.length ≤ 1019836) :
    OpenRep m slab r.next r.below 0 (prevOf 0 r.below) r.above (liveCount r.below)
      (liveBytes r.below) r.dir := h.opened_at rfl hroom

/-- Entries that fill the gap make a cell of it again. -/
theorem OpenRep.settle (mid : List Entry) {below' above' : List Entry}
    (h : OpenRep m slab next below gap prev rest c d dir)
    (hmid : Seg m (slab + span below) (prevOf 0 below) mid) (hgap : gap = span mid)
    (hprev : prev = prevOf (prevOf 0 below) mid) (hc : c = liveCount below + liveCount mid)
    (hd : d = liveBytes below + liveBytes mid) (hsplit : below' ++ above' = below ++ (mid ++ rest))
    (hnext : next = span below') : CellRep m slab ⟨below', above', dir⟩ := by
  obtain ⟨hbelow, hrest, htop, htopOffset, hnextOffset, hheader, -, -, -⟩ := h
  subst hgap hprev hc hd hnext
  constructor
  · simp only [Ring.entries]
    rw [hsplit, seg_append, seg_append, Nat.add_assoc]
    exact ⟨hbelow, hmid, hrest⟩
  · simp only [Ring.top, Ring.entries]
    rw [hsplit, span_append, span_append, prevOf_append, prevOf_append, ← Nat.add_assoc (span below)]
    exact htop
  · simp only [Ring.top, Ring.entries]
    rw [hsplit, span_append, span_append, ← Nat.add_assoc (span below)]
    exact htopOffset
  · exact hnextOffset
  · simp only [Ring.entries]
    rw [hsplit, liveCount_append, liveCount_append, liveBytes_append, liveBytes_append,
      ← Nat.add_assoc, ← Nat.add_assoc]
    exact hheader

/-- The bytes of the gap do not matter. -/
theorem OpenRep.congr (h : OpenRep m slab next below gap prev rest c d dir)
    (hm : ∀ {lo hi}, hi ≤ slab + span below ∨ slab + (span below + gap) ≤ lo → m.Agree m' lo hi) :
    OpenRep m' slab next below gap prev rest c d dir where
  belowSeg := h.belowSeg.congr (hm (by omega))
  restSeg := h.restSeg.congr (hm (by omega))
  top := h.top.congr (hm (by omega))
  topOffset := by
    have hroom := h.room
    rw [topEntryOffset, (hm (by omega) : m.Agree m' _ _).load32]
    exact h.topOffset
  nextOffset := by
    have hroom := h.room
    rw [nextEntryOffset, (hm (by omega) : m.Agree m' _ _).load32]
    exact h.nextOffset
  header := by
    have hroom := h.room
    exact h.header.congr (hm (by omega)) (hm (by omega)) (hm (by omega))
  room := h.room
  count_le := h.count_le
  bytes_le := h.bytes_le

/-- A change of the header alone, by which `taken` leaves the entries that count. -/
theorem OpenRep.headed (taken : List Entry)
    (h : OpenRep m slab next below gap prev (taken ++ rest) c d dir) {c' d' : Nat} {dir' : Dir}
    (hbody : m.Agree m' slab (slab + (span below + gap + span taken + span rest) + 36))
    (hoffsets : m.Agree m' (slab + 1019892) (slab + 1019900))
    (hheader : HeaderRep m' (slab + 1019872) (c' + liveCount rest) (d' + liveBytes rest) dir')
    (hroom : span below + gap + span taken + span rest + 36 * dir'.stack.length ≤ 1019836)
    (hc : c' ≤ span below + gap + span taken) (hd : d' ≤ span below + gap + span taken) :
    OpenRep m' slab next below (gap + span taken) (prevOf prev taken) rest c' d' dir' := by
  obtain ⟨hbelow, hrest, htop, htopOffset, hnextOffset, -, hroom', -, -⟩ := h
  rw [seg_append] at hrest
  rw [span_append] at htop htopOffset hroom'
  rw [prevOf_append] at htop
  have hassoc : span below + (gap + span taken) = span below + gap + span taken := by omega
  refine ⟨hbelow.congr (hbody.mono (by omega) (by omega)), ?_, ?_, ?_, ?_, hheader, by omega,
    by omega, by omega⟩
  · rw [hassoc, ← Nat.add_assoc]
    exact hrest.2.congr (hbody.mono (by omega) (by omega))
  · rw [hassoc, Nat.add_assoc _ (span taken)]
    exact htop.congr (hbody.mono (by omega) (by omega))
  · rw [topEntryOffset, (hoffsets.mono (by omega) (by omega) : m.Agree m' _ _).load32, hassoc,
      Nat.add_assoc _ (span taken)]
    exact htopOffset
  · rw [nextEntryOffset, (hoffsets.mono (by omega) (by omega) : m.Agree m' _ _).load32]
    exact hnextOffset

/-- Rewriting the back link behind the gap. -/
theorem OpenRep.relinked {s : Store} (h : OpenRep s.mem slab next below gap prev rest c d dir)
    {v : Nat} (hv : v < 32768) :
    OpenRep (assigned s .previousSize (slab + (span below + gap)) v).mem slab next below gap v rest
      c d dir := by
  have hframe : ∀ {lo hi}, hi ≤ slab + (span below + gap) + 32 ∨
      slab + (span below + gap) + 36 ≤ lo →
      s.mem.Agree (assigned s .previousSize (slab + (span below + gap)) v).mem lo hi :=
    fun hd => assigned_agree _ _ _ _ hd
  have hbits : entryBits (assigned s .previousSize (slab + (span below + gap)) v).mem
      (slab + (span below + gap)) =
        { entryBits s.mem (slab + (span below + gap)) with previousSize := v } := by
    rw [entryBits_assigned]
    simp only [EntryBits.assign, Nat.mod_eq_of_lt hv]
  obtain ⟨hbelow, hrest, htop, htopOffset, hnextOffset, hheader, hroom, hcle, hdle⟩ := h
  refine ⟨hbelow.congr (hframe (by omega)), ?_, ?_, ?_, ?_,
    hheader.congr (hframe (by omega)) (hframe (by omega)) (hframe (by omega)), hroom, hcle, hdle⟩
  · cases rest with
    | nil => trivial
    | cons e es =>
        refine ⟨hrest.1.relink hbits (hframe (by omega)) (hframe (by omega)), hrest.2.congr ?_⟩
        rw [Entry.span]
        exact hframe (by omega)
  · cases rest with
    | nil =>
        simp only [span_nil, Nat.add_zero, prevOf] at htop ⊢
        rw [TopAt, hbits, show entryBits s.mem _ = _ from htop]
    | cons e es =>
        rw [span_cons, Entry.span] at htop ⊢
        exact htop.congr (hframe (by omega))
  · rw [topEntryOffset, (hframe (by omega)).load32]
    exact htopOffset
  · rw [nextEntryOffset, (hframe (by omega)).load32]
    exact hnextOffset

/-- Moving the next insertion. -/
theorem OpenRep.renext {s : Store} (h : OpenRep s.mem slab next below gap prev rest c d dir)
    {v : Nat} (hv : v < 2 ^ 32) :
    OpenRep (s.store32 .bodyOffsets (slab + 1019892 + 4) v).mem slab v below gap prev rest
      c d dir := by
  have hframe : ∀ {lo hi}, hi ≤ slab + 1019896 ∨ slab + 1019900 ≤ lo →
      s.mem.Agree (s.store32 .bodyOffsets (slab + 1019892 + 4) v).mem lo hi :=
    fun hd => Machine.store32_agree _ _ _ _ (by omega)
  obtain ⟨hbelow, hrest, htop, htopOffset, -, hheader, hroom, hcle, hdle⟩ := h
  refine ⟨hbelow.congr (hframe (by omega)), hrest.congr (hframe (by omega)),
    htop.congr (hframe (by omega)), ?_, ?_,
    hheader.congr (hframe (by omega)) (hframe (by omega)) (hframe (by omega)), hroom, hcle, hdle⟩
  · rw [topEntryOffset, (hframe (by omega)).load32]
    exact htopOffset
  · rw [nextEntryOffset, Machine.load32_store32]
    exact Nat.mod_eq_of_lt hv

end Cells

/-! ## What an insertion does to memory -/

/-- What an insertion may do to a cell that it leaves with its top at `top` and `overflow` records:
body entries are stored up to the top, records that are added above it; the free space is never
computed with a wrap, and the merge loop reads headers at `visits` only. -/
def AddEvent (slab : Nat) (visits : Nat → Prop) (top overflow : Nat) (e : Event Site) : Prop :=
  e.StoreIn .body slab (slab + top + 36) ∨
  HeaderStore (slab + 1019872) (slab + 1019872 - 36 * overflow) slab e ∨
  e.StoreIn .bodyOffsets (slab + 1019892) (slab + 1019900) ∨
  (∃ top' overflow', top' + 36 * overflow' ≤ 1019836 ∧ e = .mark (.freeSpace top' overflow'
    1048576 (1019836 - (top' + 36 * overflow')))) ∨
  ∃ ptr, visits ptr ∧ e = .mark (.visit ptr)

section Operations

variable {s : Store} {slab next : Nat} {below rest : List Entry} {gap prev c d : Nat} {dir : Dir}
  {visits : Nat → Prop}

theorem AddEvent.of_body {lo hi top overflow : Nat} {e : Event Site} (h : e.StoreIn .body lo hi)
    (hlo : slab ≤ lo) (hhi : hi ≤ slab + top + 36) : AddEvent slab visits top overflow e :=
  Or.inl (h.mono hlo hhi)

/-- The free space of a cell is the true gap. -/
theorem cellBodyFreeSpace_run {n b top : Nat}
    (htop : topEntryOffset s.mem (slab + 1019892) = top)
    (hheader : HeaderRep s.mem (slab + 1019872) n b dir)
    (hroom : top + 36 * dir.stack.length ≤ 1019836) :
    cellBodyFreeSpace (slab + 1019892) (cellAt slab) s =
      .ok (bodyRoom top dir) (s.emit (.mark (.freeSpace top dir.stack.length 1048576
        (bodyRoom top dir)))) := by
  have hcount := headerOverflowCount_eq hheader
  have hend : u32 (top + 36) = top + 36 := u32_of_lt (by omega)
  have hused : u32 (28704 + dir.stack.length * 36) = 28704 + 36 * dir.stack.length := by
    rw [u32_of_lt (by omega)]
    omega
  have hsum : u32 (top + 36 + (28704 + 36 * dir.stack.length)) =
      top + 36 + (28704 + 36 * dir.stack.length) := u32_of_lt (by omega)
  have hresult : sub32 1048576 (top + 36 + (28704 + 36 * dir.stack.length)) = bodyRoom top dir := by
    rw [sub32_of_le (by omega) (by omega), bodyRoom]
    omega
  rw [cellBodyFreeSpace, load_bind, htop]
  simp only [cellHeaderBytesUsed, load_bind, cellAt, hcount, sizeofCellBodyEntry,
    sizeofCellHeader, sizeofCellDirEntry]
  rw [hend, hused, hsum, hresult, emit_bind, pure_run]

theorem freeSpace_emits {top overflow t o : Nat} (s : Store)
    (hroom : top + 36 * overflow ≤ 1019836) :
    Emits (AddEvent slab visits t o) s (s.emit (.mark (.freeSpace top overflow 1048576
      (1019836 - (top + 36 * overflow))))) :=
  Emits.emit s (Or.inr (Or.inr (Or.inr (Or.inl ⟨_, _, hroom, rfl⟩))))

theorem visit_emits {ptr t o : Nat} (s : Store) (hptr : visits ptr) :
    Emits (AddEvent slab visits t o) s (s.emit (.mark (.visit ptr))) :=
  Emits.emit s (Or.inr (Or.inr (Or.inr (Or.inr ⟨ptr, hptr, rfl⟩))))

@[simp]
theorem assignField_bind {α : Type} (f : EntryField) (ptr v : Nat) (k : Unit → Act α) (s : Store) :
    (assignField f ptr v >>= k) s = k () (assigned s f ptr v) := rfl

@[simp]
theorem assignField_run (f : EntryField) (ptr v : Nat) (s : Store) :
    assignField f ptr v s = .ok () (assigned s f ptr v) := rfl

/-- The machine after `cell_body_set_top`. -/
abbrev topped (s : Store) (ptr : Nat) : Store :=
  assigned (assigned (assigned s .freeSpace ptr 1) .topEntry ptr 1) .size ptr 0

@[simp]
theorem cellBodySetTop_bind {α : Type} (ptr : Nat) (k : Unit → Act α) (s : Store) :
    (cellBodySetTop ptr >>= k) s = k () (topped s ptr) := rfl

theorem topped_agree (s : Store) (ptr : Nat) {lo hi : Nat} (h : hi ≤ ptr + 32 ∨ ptr + 36 ≤ lo) :
    s.mem.Agree (topped s ptr).mem lo hi :=
  ((assigned_agree _ _ _ _ h).trans (assigned_agree _ _ _ _ h)).trans (assigned_agree _ _ _ _ h)

/-- Setting the top keeps the back link. -/
theorem topped_topAt (s : Store) (ptr : Nat) :
    TopAt (topped s ptr).mem ptr (entryBits s.mem ptr).previousSize := by
  rw [TopAt, entryBits_assigned, entryBits_assigned, entryBits_assigned]
  rfl

theorem assigned_emits {f : EntryField} {ptr v lo hi : Nat} (s : Store) (hlo : lo ≤ ptr + 32)
    (hhi : ptr + 36 ≤ hi) : Emits (Event.StoreIn .body lo hi) s (assigned s f ptr v) :=
  Emits.storeBits_in s hlo (by omega)

theorem topped_emits (s : Store) (ptr : Nat) :
    Emits (Event.StoreIn .body ptr (ptr + 36)) s (topped s ptr) :=
  ((assigned_emits s (by omega) (by omega)).trans (assigned_emits _ (by omega) (by omega))).trans
    (assigned_emits _ (by omega) (by omega))

/-- The entry of a chunk that has just been written, whose mark as the top is off. The size is stored
in 15 bits. -/
theorem cellBodyWriteChunk_spec (s : Store) (ptr : Nat) (e : Entry) (hlive : e.free = false)
    (hlen : e.data.length = e.size) (htop : (entryBits s.mem ptr).topEntry = 0) :
    ∃ s', cellBodyWriteChunk ptr e.checksum e.data s = .ok () s' ∧
      entryBits s'.mem ptr = ⟨0, 0, e.size % 2 ^ 15, (entryBits s.mem ptr).previousSize⟩ ∧
      (e.size < 32768 → EntryAt s'.mem ptr (entryBits s.mem ptr).previousSize e) ∧
      (∀ {lo hi}, hi ≤ ptr ∨ ptr + e.span ≤ lo → s.mem.Agree s'.mem lo hi) ∧
      Emits (Event.StoreIn .body ptr (ptr + e.span)) s s' := by
  have hclen := e.checksum.length_eq
  let s₁ := s.storeBytes .body ptr e.checksum.bytes
  let s₂ := assigned s₁ .size ptr e.data.length
  let s₃ := assigned s₂ .freeSpace ptr 0
  let s₄ := s₃.storeBytes .body (ptr + 36) e.data
  have hframe₁ : ∀ {lo hi}, hi ≤ ptr ∨ ptr + 32 ≤ lo → s.mem.Agree s₁.mem lo hi :=
    fun hd => Machine.storeBytes_agree _ _ _ _ (by omega)
  have hframe₂ : ∀ {lo hi}, hi ≤ ptr + 32 ∨ ptr + 36 ≤ lo → s₁.mem.Agree s₂.mem lo hi :=
    fun hd => assigned_agree _ _ _ _ hd
  have hframe₃ : ∀ {lo hi}, hi ≤ ptr + 32 ∨ ptr + 36 ≤ lo → s₂.mem.Agree s₃.mem lo hi :=
    fun hd => assigned_agree _ _ _ _ hd
  have hframe₄ : ∀ {lo hi}, hi ≤ ptr + 36 ∨ ptr + 36 + e.size ≤ lo → s₃.mem.Agree s₄.mem lo hi :=
    fun hd => Machine.storeBytes_agree _ _ _ _ (by omega)
  have hbits : entryBits s₄.mem ptr =
      ⟨0, 0, e.size % 2 ^ 15, (entryBits s.mem ptr).previousSize⟩ := by
    have hbits₁ : entryBits s₁.mem ptr = entryBits s.mem ptr := entryBits_congr (hframe₁ (by omega))
    rw [entryBits_congr (hframe₄ (by omega)), entryBits_assigned, entryBits_assigned, hbits₁, hlen]
    simp only [EntryBits.assign, htop, Nat.zero_mod]
    rfl
  rw [Entry.span]
  refine ⟨s₄, rfl, hbits, fun hsize => ⟨?_, fun _ => ⟨?_, ?_⟩⟩, ?_, ?_⟩
  · have hword : e.size % 2 ^ 15 = e.size := Nat.mod_eq_of_lt hsize
    rw [hbits, hlive, hword, Bool.toNat_false]
  · have hframe : s₁.mem.Agree s₄.mem ptr (ptr + 32) :=
      ((hframe₂ (by omega)).trans (hframe₃ (by omega))).trans (hframe₄ (by omega))
    rw [loadChecksum_congr hframe, Machine.mem_storeBytes, loadChecksum_write]
  · rw [Machine.mem_storeBytes, ← hlen, Mem.read_write_self]
  · intro lo hi hd
    exact (((hframe₁ (by omega)).trans (hframe₂ (by omega))).trans (hframe₃ (by omega))).trans
      (hframe₄ (by omega))
  · exact (((Emits.storeBytes_in s (by omega) (by omega)).trans
      (assigned_emits s₁ (by omega) (by omega))).trans
      (assigned_emits s₂ (by omega) (by omega))).trans
      (Emits.storeBytes_in s₃ (by omega) (by omega))

/-- Stores of the header leave the body and the offsets alone. -/
theorem headerStore_agree {s s' : Store} {addLo removeLo k : Nat}
    (h : Emits (HeaderStore (slab + 1019872) addLo removeLo) s s')
    (hadd : slab + 1019872 - 36 * k ≤ addLo) (hremove : slab + 1019872 - 36 * k ≤ removeLo) :
    s.mem.Agree s'.mem slab (slab + 1019872 - 36 * k) ∧
      s.mem.Agree s'.mem (slab + 1019892) (slab + 1019900) :=
  ⟨h.agree fun _ he => he.avoids (by omega), h.agree fun _ he => he.avoids (by omega)⟩

/-- Evicting the first entry behind the gap: it leaves the index, unless it is free. -/
theorem cellBodyEvict_spec {e : Entry} {es : List Entry} {dir' : Dir}
    (h : OpenRep s.mem slab next below gap prev (e :: es) c d dir)
    (hremove : removeAll dir [e] = some dir') (hcount : dir'.stack.length ≤ dir.stack.length)
    (hc : 0 < c + liveCount es) (hd : 0 < d + liveBytes es) :
    ∃ s', cellBodyEvict (cellAt slab) (slab + (span below + gap)) s = .ok () s' ∧
      OpenRep s'.mem slab next below (gap + e.span) e.size es c d dir' ∧
      s.mem.Agree s'.mem slab (slab + 1019872 - 36 * dir.stack.length) ∧
      ∀ visits t o, Emits (AddEvent slab visits t o) s s' := by
  obtain ⟨hentry, -⟩ := h.restSeg
  have hroom := h.room
  have hcle := h.count_le
  have hdle := h.bytes_le
  rw [span_cons] at hroom
  rw [cellBodyEvict, load_bind, hentry.free]
  have hheader := h.header
  rw [liveCount, liveBytes] at hheader
  rw [removeAll] at hremove
  have hes := liveBytes_le_span es
  by_cases hfree : e.free = true
  · rw [if_pos hfree, removeAll, Option.some.injEq] at hremove
    subst hremove
    simp only [hfree, if_true, Nat.zero_add] at hheader ⊢
    refine ⟨s, rfl, ?_, Mem.Agree.refl _ _ _, fun _ _ _ => Emits.refl _ s⟩
    exact h.headed [e] (Mem.Agree.refl _ _ _) (Mem.Agree.refl _ _ _) hheader
      (by simp only [span_cons, span_nil]; omega) (by omega) (by omega)
  · simp only [hfree, Bool.false_eq_true, if_false] at hheader hremove ⊢
    rw [Bool.not_eq_true] at hfree
    obtain ⟨hchecksum, -⟩ := hentry.chunk hfree
    obtain ⟨dir₁, hevict, hnil⟩ := Option.bind_eq_some_iff.1 hremove
    rw [removeAll, Option.some.injEq] at hnil
    subst hnil
    rw [Entry.span] at hroom
    obtain ⟨s', hrun, hheader', hemits⟩ := cellHeaderRemove_spec (z := e.size) hheader hchecksum
      (by rw [hentry.bits]) hevict (by omega) (by omega) (by omega) (by omega) (by omega)
    obtain ⟨hbody, hoffsets⟩ := headerStore_agree (k := dir.stack.length) hemits (by omega) (by omega)
    refine ⟨s', ?_, ?_, hbody, fun _ _ _ => hemits.mono fun _ he =>
      Or.inr (Or.inl (he.mono (by omega) (by omega)))⟩
    · exact hrun
    · refine h.headed [e] (hbody.mono (Nat.le_refl _) ?_) hoffsets ?_ ?_ (by omega)
        (by omega)
      · simp only [span_cons, span_nil, Entry.span]
        omega
      · have hn : c + (1 + liveCount es) - 1 = c + liveCount es := by omega
        have hb : d + (e.size + liveBytes es) - e.size = d + liveBytes es := by omega
        rwa [hn, hb] at hheader'
      · simp only [span_cons, span_nil, Entry.span]
        omega

/-- Evicting an entry that the index does not have fails an assertion. -/
theorem cellBodyEvict_abort {e : Entry} {es : List Entry}
    (h : OpenRep s.mem slab next below gap prev (e :: es) c d dir)
    (hremove : removeAll dir [e] = none) :
    cellBodyEvict (cellAt slab) (slab + (span below + gap)) s = .error .always s := by
  obtain ⟨hentry, -⟩ := h.restSeg
  rw [cellBodyEvict, load_bind, hentry.free]
  rw [removeAll] at hremove
  by_cases hfree : e.free = true
  · rw [if_pos hfree] at hremove
    cases hremove
  · rw [if_neg hfree] at hremove
    rw [if_neg hfree]
    rw [Bool.not_eq_true] at hfree
    obtain ⟨hchecksum, -⟩ := hentry.chunk hfree
    have hnone : dir.remove e.checksum = none := by
      cases hone : dir.remove e.checksum with
      | none => rfl
      | some dir' =>
          rw [hone] at hremove
          cases hremove
    exact cellHeaderRemove_abort h.header (by rw [hchecksum]; exact hnone)

/-- Giving the index the entry of a chunk whose bytes lie in the gap. -/
theorem addEntry_spec {e : CellDirEntry} {size : Nat}
    (h : OpenRep s.mem slab next below gap prev rest c d dir) (hset : e.set = true)
    (hroom : span below + gap + span rest + 36 * (dir.stack.length + 1) ≤ 1019836)
    (hc : c + 1 ≤ span below + gap) (hd : d + size ≤ span below + gap) :
    ∃ s', cellHeaderAdd (slab + 1019872) e size s = .ok () s' ∧
      OpenRep s'.mem slab next below gap prev rest (c + 1) (d + size) (dir.add e) ∧
      s.mem.Agree s'.mem slab (slab + 1019872 - 36 * (dir.stack.length + 1)) ∧
      ∀ visits t, Emits (AddEvent slab visits t (dir.add e).stack.length) s s' := by
  have hrest := liveBytes_le_span rest
  obtain ⟨s', hrun, hheader, hemits⟩ := cellHeaderAdd_spec size h.header hset
    (by omega) (by omega) (by omega) (by omega)
  have hover := Dir.add_over_length_le dir e
  obtain ⟨hbody, hoffsets⟩ := headerStore_agree (k := dir.stack.length + 1) hemits
    (by omega) (by omega)
  refine ⟨s', hrun, ?_, hbody, fun _ _ => hemits.mono fun _ he =>
    Or.inr (Or.inl (he.mono (Nat.le_refl _) (by omega)))⟩
  have hn : c + liveCount rest + 1 = c + 1 + liveCount rest := by omega
  have hb : d + liveBytes rest + size = d + size + liveBytes rest := by omega
  rw [hn, hb] at hheader
  exact h.headed [] (hbody.mono (Nat.le_refl _) (by rw [span_nil]; omega)) hoffsets hheader
    (by rw [span_nil]; omega) (by rw [span_nil]; omega) (by rw [span_nil]; omega)

end Operations

end Theo
