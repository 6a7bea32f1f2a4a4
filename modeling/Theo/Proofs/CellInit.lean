import Theo.Proofs.Body
import Theo.Ring.Invariant

set_option autoImplicit false

/-! # Initialising a cell

`cell_header_init` clears the header and makes the start of the slab the top of an empty body. Up to
its first barrier all it stores are zeros, inside the header, and the bit fields of the first body
entry (`InitEvent`); only behind the barrier the magic number goes in. -/

namespace Theo

open ByteMachine BucketIndex

/-- A store of `cell_header_init` in front of its first barrier. -/
def InitEvent (slab : Nat) (e : Event Site) : Prop :=
  (∃ site addr n, e = .store site addr (List.replicate n 0) ∧ slab + 1019872 ≤ addr ∧
    addr + n ≤ slab + 1048576) ∨ e.StoreIn .body (slab + 32) (slab + 36)

section

variable {slab : Nat} {s s' : Store}

/-- Cleared bytes of the header stay cleared. -/
theorem InitEvent.emits_zero {lo hi : Nat} (h : Emits (InitEvent slab) s s')
    (hz : s.mem.Zero lo hi) (hlo : slab + 36 ≤ lo) : s'.mem.Zero lo hi := by
  refine h.zero (fun e he => ?_) hz
  rcases he with ⟨site, addr, n, rfl, -, -⟩ | hbody
  · exact Or.inr ⟨site, addr, addr + n, addr, n, rfl, Nat.le_refl _, Nat.le_refl _⟩
  · exact Or.inl (hbody.avoids (Or.inr (by omega)))

/-- A store of zeros inside the header. -/
def HeaderClear (slab : Nat) (e : Event Site) : Prop :=
  ∃ site, e.ClearIn site (slab + 1019872) (slab + 1048576)

theorem HeaderClear.of_clearIn {e : Event Site} {site : Site} {lo hi : Nat} (h : e.ClearIn site lo hi)
    (hlo : slab + 1019872 ≤ lo) (hhi : hi ≤ slab + 1048576) : HeaderClear slab e := by
  obtain ⟨addr, n, rfl, ha, hb⟩ := h
  exact ⟨site, addr, n, rfl, by omega, by omega⟩

/-- Clearing the header leaves the body. -/
theorem HeaderClear.agree {s s' : Store} (h : Emits (HeaderClear slab) s s') {lo hi : Nat}
    (hhi : hi ≤ slab + 1019872) : s.mem.Agree s'.mem lo hi := by
  refine h.agree fun e he => ?_
  obtain ⟨site, hclear⟩ := he
  exact hclear.storeIn.avoids (by omega)

theorem HeaderClear.initEvent {e : Event Site} (h : HeaderClear slab e) : InitEvent slab e := Or.inl h

theorem memset_emits {site : Site} {addr n : Nat} (s : Store) (hlo : slab + 1019872 ≤ addr)
    (hhi : addr + n ≤ slab + 1048576) :
    Emits (HeaderClear slab) s (s.storeBytes site addr (List.replicate n 0)) :=
  (Emits.memset_in s hlo hhi).mono fun _ he => ⟨site, he⟩

theorem clear32_emits {site : Site} {addr : Nat} (s : Store) (hlo : slab + 1019872 ≤ addr)
    (hhi : addr + 4 ≤ slab + 1048576) : Emits (HeaderClear slab) s (s.store32 site addr 0) :=
  Emits.store32 s ⟨site, addr, 4, rfl, hlo, hhi⟩

/-- An all-zero header is that of a cell that holds nothing. -/
theorem headerRep_zero {m : Mem} (hz : m.Zero (slab + 1019876) (slab + 1048576)) :
    HeaderRep m (slab + 1019872) 0 0 Ring.empty.dir where
  entries := (hz.mono (by omega) (by omega)).load32
  bytes := (hz.mono (by omega) (by omega)).load32
  dir := by
    have hdir : m.Zero (slab + 1019872 + 28) (slab + 1019872 + 28 + 28676) :=
      hz.mono (by omega) (by omega)
    exact dirRep_zero _ hdir

/-- The machine behind the stores in front of the first barrier. -/
abbrev initialised (s : Store) (slab : Nat) : Store :=
  ((s.emit .barrier).store32 .header (slab + 1019872) cellHeaderMagic).emit .barrier

/-- What `cell_header_init` does from `s` up to its first barrier in `s₁`: it clears the whole header,
clears parts of it once more up to `sf`, sets the bit fields of the first body entry, and again
clears parts of the header. -/
structure Restarted (slab : Nat) (s sf s₁ : Store) : Prop where
  clear : Emits (HeaderClear slab) (s.storeBytes .header (slab + 1019872) (List.replicate 28704 0)) sf
  clearAgain : Emits (HeaderClear slab) (assigned (topped sf slab) .previousSize slab 0) s₁

theorem cellHeaderInit_restarted (slab : Nat) (s : Store) : ∃ sf s₁,
    cellHeaderInit (slab + 1019872) (cellAt slab) s = .ok () (initialised s₁ slab) ∧
      Restarted slab s sf s₁ := by
  obtain ⟨sa, hsa⟩ : ∃ sa, sa = s.storeBytes .header (slab + 1019872) (List.replicate 28704 0) :=
    ⟨_, rfl⟩
  obtain ⟨sb, hsb⟩ : ∃ sb, sb = sa.storeBytes .integrity (slab + 1019872 + 12)
    (List.replicate 8 0) := ⟨_, rfl⟩
  obtain ⟨se, hdir, -, hdirEmits⟩ := cellDirInit_spec (slab + 1019900) sb
  obtain ⟨sf, hsf⟩ : ∃ sf, sf = se.storeBytes .bodyOffsets (slab + 1019892) (List.replicate 8 0) :=
    ⟨_, rfl⟩
  obtain ⟨sg, hsg⟩ : ∃ sg, sg = assigned (topped sf slab) .previousSize slab 0 := ⟨_, rfl⟩
  obtain ⟨sh, hsh⟩ : ∃ sh, sh = sg.store32 .bodyOffsets (slab + 1019892) 0 := ⟨_, rfl⟩
  obtain ⟨si, hsi⟩ : ∃ si, si = sh.store32 .bodyOffsets (slab + 1019892 + 4) 0 := ⟨_, rfl⟩
  refine ⟨sf, si, ?_, ?_, ?_⟩
  · have hbody : cellBodyInit (slab + 1019892) (cellAt slab) se = .ok () si := by
      rw [cellBodyInit, memset_bind, ← hsf, cellBodySetTop_bind, assignField_bind, store32_bind,
        store32_run, hsi, hsh, hsg]
      rfl
    rw [cellHeaderInit, memset_bind, sizeofCellHeader, ← hsa, cellIcInit, cellIcPtr, memset_bind,
      ← hsb]
    simp only [cellDirPtr, cellBodyPtr, Nat.add_assoc, Nat.reduceAdd]
    rw [bind_ok hdir, bind_ok hbody, emit_bind, store32_bind, emit_run]
  · have hemitsb : Emits (HeaderClear slab) sa sb := by
      rw [hsb]
      exact memset_emits sa (by omega) (by omega)
    have hemitse : Emits (HeaderClear slab) sb se :=
      hdirEmits.mono fun _ he => HeaderClear.of_clearIn he (by omega) (by omega)
    have hemitsf : Emits (HeaderClear slab) se sf := by
      rw [hsf]
      exact memset_emits se (by omega) (by omega)
    rw [← hsa]
    exact (hemitsb.trans hemitse).trans hemitsf
  · rw [← hsg, hsi, hsh]
    exact (clear32_emits sg (by omega) (by omega)).trans (clear32_emits _ (by omega) (by omega))

theorem memset_header (s : Store) : Emits (HeaderClear slab) s
    (s.storeBytes .header (slab + 1019872) (List.replicate 28704 0)) :=
  memset_emits s (Nat.le_refl _) (by omega)

theorem Restarted.rest {sf s₁ : Store} (h : Restarted slab s sf s₁) : Emits (InitEvent slab)
    (s.storeBytes .header (slab + 1019872) (List.replicate 28704 0)) s₁ := by
  have hbody : Emits (Event.StoreIn .body (slab + 32) (slab + 36)) sf
      (assigned (topped sf slab) .previousSize slab 0) :=
    (((assigned_emits sf (by omega) (by omega)).trans
      (assigned_emits _ (by omega) (by omega))).trans
      (assigned_emits _ (by omega) (by omega))).trans (assigned_emits _ (by omega) (by omega))
  exact ((h.clear.mono fun _ => HeaderClear.initEvent).trans (hbody.mono fun _ he => Or.inr he)).trans
    (h.clearAgain.mono fun _ => HeaderClear.initEvent)

theorem Restarted.emits {sf s₁ : Store} (h : Restarted slab s sf s₁) : Emits (InitEvent slab) s s₁ :=
  ((memset_header s).mono fun _ => HeaderClear.initEvent).trans h.rest

theorem Restarted.zero {sf s₁ : Store} (h : Restarted slab s sf s₁) :
    s₁.mem.Zero (slab + 1019872) (slab + 1048576) := by
  refine InitEvent.emits_zero h.rest ?_ (by omega)
  rw [Machine.mem_storeBytes]
  exact (Mem.write_zero _ _ _).mono (Nat.le_refl _) (by omega)

theorem Restarted.topAt {sf s₁ : Store} (h : Restarted slab s sf s₁) : TopAt s₁.mem slab 0 := by
  have htop : TopAt (assigned (topped sf slab) .previousSize slab 0).mem slab 0 := by
    have htopped := topped_topAt sf slab
    rw [TopAt] at htopped ⊢
    rw [entryBits_assigned, htopped]
    rfl
  exact htop.congr (HeaderClear.agree h.clearAgain (by omega))

theorem cellHeaderInit_spec (slab : Nat) (s : Store) :
    ∃ s₁, cellHeaderInit (slab + 1019872) (cellAt slab) s = .ok () (initialised s₁ slab) ∧
      Emits (InitEvent slab) s s₁ ∧ s₁.mem.Zero (slab + 1019872) (slab + 1048576) ∧
      TopAt s₁.mem slab 0 := by
  obtain ⟨sf, s₁, hrun, h⟩ := cellHeaderInit_restarted slab s
  exact ⟨s₁, hrun, h.emits, h.zero, h.topAt⟩

/-- The bytes of the slab are those of a sane cell `r`, whose index may have lost count. -/
structure CellShaped (l : Limits) (m : Mem) (slab : Nat) (r : Ring) : Prop where
  rep : CellRep m slab r
  shape : r.Shape l
  magic : m.load32 (slab + 1019872) = cellHeaderMagic
  codes : m.load32 (slab + 1019884) = m.load32 (slab + 1019888)

/-- The bytes of the slab are those of a sane cell `r`. -/
structure CellHolds (l : Limits) (m : Mem) (slab : Nat) (r : Ring) : Prop where
  rep : CellRep m slab r
  inv : r.Inv l
  magic : m.load32 (slab + 1019872) = cellHeaderMagic
  codes : m.load32 (slab + 1019884) = m.load32 (slab + 1019888)

theorem CellHolds.shaped {l : Limits} {m : Mem} {r : Ring} (h : CellHolds l m slab r) :
    CellShaped l m slab r := ⟨h.rep, h.inv.toShape, h.magic, h.codes⟩

theorem cellHeaderSane_iff (m : Mem) : cellHeaderSane m (slab + 1019872) = true ↔
    m.load32 (slab + 1019872) = cellHeaderMagic ∧
      m.load32 (slab + 1019884) = m.load32 (slab + 1019888) := by
  simp only [cellHeaderSane, cellIcSane, entryCode, exitCode, cellIcPtr, Nat.add_assoc,
    Nat.reduceAdd]
  split
  · next hmagic => exact iff_of_false Bool.false_ne_true fun h => hmagic h.1
  · next hmagic => rw [beq_iff_eq, and_iff_right (Decidable.not_not.1 hmagic)]

theorem CellHolds.sane {l : Limits} {m : Mem} {r : Ring} (h : CellHolds l m slab r) :
    cellHeaderSane m (slab + 1019872) = true := (cellHeaderSane_iff m).2 ⟨h.magic, h.codes⟩

/-- A cleared header with a top at the start of the body is that of an empty cell, once the magic
number is in. -/
theorem initialised_holds (l : Limits) (hz : s.mem.Zero (slab + 1019872) (slab + 1048576))
    (htop : TopAt s.mem slab 0) : CellHolds l (initialised s slab).mem slab Ring.empty := by
  have hframe : ∀ {lo hi}, hi ≤ slab + 1019872 ∨ slab + 1019876 ≤ lo →
      s.mem.Agree (initialised s slab).mem lo hi :=
    fun hd => Machine.store32_agree (s.emit .barrier) .header _ _ (by omega)
  have hz' : (initialised s slab).mem.Zero (slab + 1019876) (slab + 1048576) :=
    (hframe (by omega)).zero (hz.mono (by omega) (by omega))
  refine ⟨⟨trivial, htop.congr (hframe (by omega)), ?_, ?_, headerRep_zero hz'⟩,
    Ring.empty_inv l, ?_, ?_⟩
  · rw [topEntryOffset, (hz'.mono (by omega) (by omega)).load32]
    rfl
  · rw [nextEntryOffset, (hz'.mono (by omega) (by omega)).load32]
    rfl
  · rw [Machine.mem_emit_barrier, Machine.load32_store32]
    rfl
  · rw [(hz'.mono (by omega) (by omega)).load32, (hz'.mono (by omega) (by omega)).load32]

theorem cellInit_sane (h : cellHeaderSane s.mem (slab + 1019872) = true) :
    cellInit slab cacheCellSize s = .ok (cellAt slab) s := by
  rw [cellInit, always, check_bind_true _ (by decide)]
  simp only [cacheCellSize, sizeofCellHeader, Nat.reduceSub]
  rw [load_bind, h]
  rfl

/-- A slab whose header is not sane is started anew. -/
theorem cellInit_restart {s' : Store} (h : cellHeaderSane s.mem (slab + 1019872) = false)
    (hrun : cellHeaderInit (slab + 1019872) (cellAt slab) s = .ok () s') :
    cellInit slab cacheCellSize s = .ok (cellAt slab) s' := by
  rw [cellInit, always, check_bind_true _ (by decide)]
  simp only [cacheCellSize, sizeofCellHeader, Nat.reduceSub]
  rw [load_bind, h]
  simp only [Bool.false_eq_true, if_false]
  rw [show (⟨slab + 1019872, slab, 1048576⟩ : Cell) = cellAt slab from rfl, bind_ok hrun, pure_run]

/-- A slab whose header is not sane becomes that of an empty cell. -/
theorem cellInit_insane (slab : Nat) (l : Limits) (h : cellHeaderSane s.mem (slab + 1019872) = false) :
    ∃ s₁, cellInit slab cacheCellSize s = .ok (cellAt slab) (initialised s₁ slab) ∧
      Emits (InitEvent slab) s s₁ ∧ s₁.mem.Zero (slab + 1019872) (slab + 1048576) ∧
      TopAt s₁.mem slab 0 ∧ CellHolds l (initialised s₁ slab).mem slab Ring.empty := by
  obtain ⟨s₁, hrun, hemits, hz, htop⟩ := cellHeaderInit_spec slab s
  exact ⟨s₁, cellInit_restart h hrun, hemits, hz, htop, initialised_holds l hz htop⟩

/-- A zeroed slab is not sane. -/
theorem cellHeaderSane_zero {m : Mem} (hz : m.Zero slab (slab + 1048576)) :
    cellHeaderSane m (slab + 1019872) = false := by
  rw [cellHeaderSane, (hz.mono (by omega) (by omega)).load32]
  rfl

end

end Theo
