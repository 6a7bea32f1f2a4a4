import Theo.Cell.Crash

set_option autoImplicit false

/-! # A crash during recovery

`cell_header_init` clears the whole header before its first barrier, so that a second crash may leave
the integrity codes cleared next to a magic number that still stands. What such a slab holds is up
to the insertion that was interrupted first: recovery is safe exactly where that one left the body
and the directory of an empty cell (`recovery_crash_iff`). -/

namespace Theo

open ByteMachine BucketIndex

section

variable {slab : Nat} {m m' d : Mem} {s sf s₁ : Store} {e : Event Site} {es : List (Event Site)}

/-! ## Clearing parts of an empty cell -/

theorem loadDirEntry_cleared (h : m.Cleared m') {ptr : Nat} (hset : (loadDirEntry m ptr).set = false) :
    (loadDirEntry m' ptr).set = false := by
  have hzero : getBits (m.load32 (ptr + 32)) 31 1 = 0 := by
    have hne : getBits (m.load32 (ptr + 32)) 31 1 ≠ 1 := beq_eq_false_iff_ne.1 hset
    have hlt : getBits (m.load32 (ptr + 32)) 31 1 < 2 ^ 1 := Nat.mod_lt _ (by decide)
    omega
  show (getBits (m'.load32 (ptr + 32)) 31 1 == 1) = false
  rw [h.getBits hzero]
  rfl

theorem DirRep.cleared {cellDir bufferTop : Nat} (h : DirRep m cellDir bufferTop (Index.empty 3))
    (hc : m.Cleared m') : DirRep m' cellDir bufferTop (Index.empty 3) where
  block i hi := by
    obtain ⟨-, ⟨hfirst, hsecond, hthird, -⟩, hcount, hspilled⟩ := h.block i hi
    exact ⟨rfl, ⟨loadDirEntry_cleared hc hfirst, loadDirEntry_cleared hc hsecond,
      loadDirEntry_cleared hc hthird, trivial⟩, hc.getBits hcount, hc.getBits hspilled⟩
  count := hc.getBits h.count
  stack := trivial
  room := Nat.zero_le _

theorem HeaderRep.cleared {H : Nat} (h : HeaderRep m H 0 0 Ring.empty.dir) (hc : m.Cleared m') :
    HeaderRep m' H 0 0 Ring.empty.dir where
  entries := hc.load32 h.entries
  bytes := hc.load32 h.bytes
  dir := DirRep.cleared h.dir hc

theorem CellRep.cleared (h : CellRep m slab Ring.empty) (hc : m.Cleared m')
    (htop : m.Agree m' (slab + 32) (slab + 36)) : CellRep m' slab Ring.empty where
  body := trivial
  top := TopAt.congr h.top htop
  topOffset := hc.load32 h.topOffset
  nextOffset := hc.load32 h.nextOffset
  header := HeaderRep.cleared h.header hc

/-! ## Restarting an empty cell -/

/-- The bit fields of a top with nothing in front of it fill their word. -/
theorem topAt_iff {ptr : Nat} : TopAt m ptr 0 ↔ m.load32 (ptr + 32) = 3 := by
  constructor
  · intro h
    have hlt := m.load32_lt (ptr + 32)
    rw [TopAt, entryBits, EntryBits.mk.injEq] at h
    simp only [getBits] at h
    omega
  · intro h
    rw [TopAt, entryBits, h]
    rfl

/-- A store of `cell_header_init` on a slab that starts with a top. -/
def RestartEvent (slab : Nat) (e : Event Site) : Prop :=
  HeaderClear slab e ∨ e = .store .body (slab + 32) (Mem.bytes32 3)

theorem CellRep.restart (h : CellRep m slab Ring.empty) (he : RestartEvent slab e) :
    CellRep (e.apply m) slab Ring.empty := by
  rcases he with ⟨site, addr, n, rfl, hlo, -⟩ | rfl
  · exact h.cleared (m.cleared_write addr n) (Mem.write_agree _ _ _ (Or.inl (by omega)))
  · have htop : TopAt (m.write (slab + 32) (Mem.bytes32 3)) slab 0 :=
      topAt_iff.2 (Mem.load32_write_self _ _ _)
    have hagree : m.Agree (m.write (slab + 32) (Mem.bytes32 3)) (slab + 36) (slab + 1048576) :=
      Mem.write_agree _ _ _ (Or.inr (Nat.le_refl _))
    refine ⟨trivial, htop, ?_, ?_, ?_⟩
    · exact ((hagree.mono (by omega) (by omega)).load32).trans h.topOffset
    · exact ((hagree.mono (by omega) (by omega)).load32).trans h.nextOffset
    · refine h.header.congr ?_ (hagree.mono (by omega) (by omega)) (hagree.mono (by omega) (by omega))
      exact hagree.mono (by show slab + 36 ≤ slab + 1019872 - 36 * 0; omega) (by omega)

theorem CellRep.restarts (h : CellRep m slab Ring.empty) (hes : ∀ e ∈ es, RestartEvent slab e) :
    CellRep (replay m es) slab Ring.empty := by
  induction es generalizing m with
  | nil => exact h
  | cons e es ih =>
      obtain ⟨he, hes⟩ := List.forall_mem_cons.1 hes
      exact ih (h.restart he) hes

/-- A bit field that is given the value it has. -/
theorem assigned_restart {f : EntryField} {v : Nat} (h : s.mem.load32 (slab + 32) = 3)
    (hv : setBits 3 f.lo f.width v = 3) : Emits (RestartEvent slab) s (assigned s f slab v) ∧
      (assigned s f slab v).mem.load32 (slab + 32) = 3 := by
  rw [assigned, Machine.storeBits, h, hv]
  exact ⟨Emits.store32 s (Or.inr rfl), Machine.load32_store32 _ _ _ _⟩

theorem Restarted.restarts (h : Restarted slab s sf s₁) (htop : TopAt s.mem slab 0) :
    Emits (RestartEvent slab) s s₁ := by
  have hclear : Emits (HeaderClear slab) s sf := (memset_header s).trans h.clear
  have hword : sf.mem.load32 (slab + 32) = 3 :=
    topAt_iff.1 (htop.congr (HeaderClear.agree hclear (by omega)))
  obtain ⟨hfree, hword⟩ := assigned_restart (f := .freeSpace) (v := 1) hword rfl
  obtain ⟨hmark, hword⟩ := assigned_restart (f := .topEntry) (v := 1) hword rfl
  obtain ⟨hsize, hword⟩ := assigned_restart (f := .size) (v := 0) hword rfl
  obtain ⟨hprevious, -⟩ := assigned_restart (f := .previousSize) (v := 0) hword rfl
  have hbody := ((hfree.trans hmark).trans hsize).trans hprevious
  exact ((hclear.mono fun _ he => Or.inl he).trans hbody).trans
    (h.clearAgain.mono fun _ he => Or.inl he)

/-! ## A crash in `cell_header_init` -/

theorem InitEvent.ne_barrier (h : InitEvent slab e) : e ≠ .barrier := by
  rcases h with ⟨site, addr, n, rfl, -⟩ | hbody
  · intro hbarrier
    cases hbarrier
  · exact hbody.ne_barrier

/-- The events of `cell_header_init` behind `es`. -/
def enabling (slab : Nat) : List (Event Site) :=
  [.barrier, .store .header (slab + 1019872) (Mem.bytes32 cellHeaderMagic), .barrier]

/-- The cell is empty and complete once the first barrier is passed and the magic number stands. -/
theorem crash_enabling (hes : ∀ e ∈ es, e ≠ .barrier) (hcrash : Crash m (es ++ enabling slab) d) :
    (∃ kept, kept.Sublist es ∧ d = replay m kept) ∨ d = replay m es ∨
      d = (replay m es).write (slab + 1019872) (Mem.bytes32 cellHeaderMagic) := by
  rcases crash_barrier hcrash with hfront | hbehind
  · exact Or.inl ((crash_of_no_barrier hes).1 hfront)
  · have hmagic : Crash (replay m es) ([.store Site.header (slab + 1019872)
        (Mem.bytes32 cellHeaderMagic)] ++ .barrier :: []) d := hbehind
    rcases crash_barrier hmagic with hstore | hlast
    · exact Or.inr (crash_store hstore)
    · exact Or.inr (Or.inr (crash_nil hlast))

theorem diesWithin_start : DiesWithin m ⟨m, []⟩ ((⟨m, []⟩ : Store).after es) d ↔ Crash m es d := by
  constructor
  · rintro ⟨log, -, hlog, hd⟩
    exact ⟨log, hlog, hd⟩
  · rintro ⟨log, hlog, hd⟩
    exact ⟨log, List.nil_prefix, hlog, hd⟩

theorem CodesDiffer.insane (h : CodesDiffer m slab) : cellHeaderSane m (slab + 1019872) = false := by
  rw [Bool.eq_false_iff]
  intro hsane
  exact h ((cellHeaderSane_iff m).1 hsane).2

/-- The events of a recovery. -/
theorem recovery_events (h : CodesDiffer m slab) : ∃ sf es,
    final (cellInit slab cacheCellSize ⟨m, []⟩) = (⟨m, []⟩ : Store).after (es ++ enabling slab) ∧
      Restarted slab ⟨m, []⟩ sf ((⟨m, []⟩ : Store).after es) ∧ ∀ e ∈ es, e ≠ .barrier := by
  obtain ⟨sf, s₁, hrun, hrestarted⟩ := cellHeaderInit_restarted slab ⟨m, []⟩
  obtain ⟨es, rfl, hes⟩ := hrestarted.emits.eq_after
  refine ⟨sf, es, ?_, hrestarted, fun e he => (hes e he).ne_barrier⟩
  rw [cellInit_restart h.insane hrun, final, initialised_eq, Machine.after_append]
  rfl

/-- A slab that becomes sane during recovery is that of an empty cell, if it was one but for its
integrity codes. -/
theorem recovery_safe (h : CodesDiffer m slab) (hrep : CellRep m slab Ring.empty)
    (hcrash : DiesWithin m ⟨m, []⟩ (final (cellInit slab cacheCellSize ⟨m, []⟩)) d) :
    cellHeaderSane d (slab + 1019872) = false ∨ CellHolds chunkerLimits d slab Ring.empty := by
  obtain ⟨sf, es, hrun, hrestarted, hes⟩ := recovery_events h
  rw [hrun, diesWithin_start] at hcrash
  rcases crash_enabling hes hcrash with ⟨kept, hkept, rfl⟩ | rfl | rfl
  · obtain ⟨es', heq, hrestart⟩ := (hrestarted.restarts hrep.top).eq_after
    have hevents : es' = es := (Machine.after_inj heq).symm
    have hempty : CellRep (replay m kept) slab Ring.empty :=
      hrep.restarts fun e he => hrestart e (hevents ▸ hkept.subset he)
    cases hsane : cellHeaderSane (replay m kept) (slab + 1019872) with
    | false => exact Or.inl rfl
    | true =>
        obtain ⟨hmagic, hcodes⟩ := (cellHeaderSane_iff _).1 hsane
        exact Or.inr ⟨hempty, Ring.empty_inv _, hmagic, hcodes⟩
  · left
    have hmagic : (replay m es).load32 (slab + 1019872) = 0 :=
      (hrestarted.zero.mono (Nat.le_refl _) (by omega)).load32
    rw [cellHeaderSane, hmagic]
    rfl
  · exact Or.inr (initialised_holds chunkerLimits hrestarted.zero hrestarted.topAt)

/-- Any stretch of the header may be all that a recovery has cleared. -/
theorem recovery_clears (h : CodesDiffer m slab) {k n : Nat} (hn : k + n ≤ 28704) :
    DiesWithin m ⟨m, []⟩ (final (cellInit slab cacheCellSize ⟨m, []⟩))
      (m.write (slab + 1019872 + k) (List.replicate n 0)) := by
  obtain ⟨sf, es, hrun, hrestarted, hes⟩ := recovery_events h
  obtain ⟨rest, hrest, -⟩ := hrestarted.rest.eq_after
  rw [Machine.storeBytes_after, Machine.after_append] at hrest
  have hevents : es = byteStores .header (slab + 1019872) (List.replicate 28704 0) ++ rest :=
    Machine.after_inj hrest
  have hsplit : List.replicate 28704 (0 : UInt8) =
      List.replicate k 0 ++ (List.replicate n 0 ++ List.replicate (28704 - (k + n)) 0) := by
    rw [List.replicate_append_replicate, List.replicate_append_replicate]
    congr 1
    omega
  have hkept : (byteStores (.header : Site) (slab + 1019872 + k) (List.replicate n 0)).Sublist es := by
    rw [hevents, hsplit, byteStores_append, byteStores_append, List.length_replicate]
    exact ((List.sublist_append_left _ _).trans (List.sublist_append_right _ _)).trans
      (List.sublist_append_left _ _)
  rw [hrun, diesWithin_start]
  refine ⟨es, List.prefix_append _ _, (durable_of_no_barrier hes).2 ⟨_, hkept, ?_⟩⟩
  rw [replay_byteStores]

/-- A slab with nothing but its integrity codes cleared is sane. -/
theorem codesCleared_sane (hmagic : m.load32 (slab + 1019872) = cellHeaderMagic) {k n : Nat}
    (hk : 4 ≤ k) (hlo : k ≤ 12) (hhi : 20 ≤ k + n) :
    cellHeaderSane (m.write (slab + 1019872 + k) (List.replicate n 0)) (slab + 1019872) = true := by
  have hzero := m.write_zero (slab + 1019872 + k) n
  refine (cellHeaderSane_iff _).2 ⟨?_, ?_⟩
  · rw [(m.write_agree _ _ (Or.inl (by omega))).load32, hmagic]
  · rw [(hzero.mono (by omega) (by omega)).load32, (hzero.mono (by omega) (by omega)).load32]

/-- Recovery survives a second crash exactly where the interrupted insertion had left the body and
the directory of an empty cell. -/
theorem recovery_crash_iff (hmagic : m.load32 (slab + 1019872) = cellHeaderMagic)
    (hcodes : CodesDiffer m slab) :
    (∀ d, DiesWithin m ⟨m, []⟩ (final (cellInit slab cacheCellSize ⟨m, []⟩)) d →
      cellHeaderSane d (slab + 1019872) = false ∨ CellHolds chunkerLimits d slab Ring.empty) ↔
    CellRep m slab Ring.empty := by
  constructor
  · intro hsafe
    rcases hsafe _ (recovery_clears hcodes (k := 12) (n := 8) (by omega)) with hinsane | hholds
    · rw [codesCleared_sane hmagic (by omega) (by omega) (by omega)] at hinsane
      cases hinsane
    · refine hholds.rep.congr (by decide) ?_ ?_
      · exact (m.write_agree _ _ (Or.inl (by omega))).symm
      · exact (m.write_agree _ _ (Or.inr (by rw [List.length_replicate]))).symm
  · intro hrep d
    exact recovery_safe hcodes hrep

end

/-- What an insertion leaves that dies with all but its exit code durable. -/
theorem insert_interrupted {l : Limits} {slab : Nat} {m : Mem} {s s₁ : Store} {r r' : Ring}
    {c : Checksum} {buffer : List UInt8} {visits : Nat → Prop} (hs : Settled m s)
    (h : CellHolds l s.mem slab r)
    (hrun : cellAddChunk (cellAt slab) c buffer s = .ok true (left s₁ slab))
    (hemits : Emits (AddEvent slab visits r'.top r'.dir.stack.length) (entered s slab) s₁)
    (hholds : CellHolds l (left s₁ slab).mem slab r') :
    DiesWithin m s (final (cellAddChunk (cellAt slab) c buffer s)) s₁.mem ∧
      s₁.mem.load32 (slab + 1019872) = cellHeaderMagic ∧ CodesDiffer s₁.mem slab ∧
      CellRep s₁.mem slab r' := by
  have hroom := hholds.inv.room
  obtain ⟨body, rfl, hbody⟩ := hemits.eq_after
  have hbodily : ∀ e ∈ body, Bodily slab e := fun e he => (hbody e he).bodily hroom
  refine ⟨dies_inserting hs hrun (fun e he => (hbodily e he).1) (List.Sublist.refl body), ?_, ?_, ?_⟩
  · have hleft : ((entered s slab).after body).mem.Agree (left ((entered s slab).after body) slab).mem
        (slab + 1019872) (slab + 1019872 + 4) := left_agree _ (by omega)
    rw [← hleft.load32, hholds.magic]
  · exact (entered_codesDiffer h).congr (replay_agree fun e he => (hbodily e he).2)
  · exact hholds.rep.congr hroom (left_agree _ (by omega)).symm (left_agree _ (by omega)).symm

/-- The first insertion dies with nothing durable but its entry code, and the recovery from it at any
point: the cell is cleared, or empty. -/
theorem recovery_crash_iff_entered : ∃ s m,
    cellInit 0 cacheCellSize ⟨fun _ => 0, []⟩ = .ok (cellAt 0) s ∧
    DiesWithin (fun _ => 0) s (final (cellAddChunk (cellAt 0) (.fill 1) (someBytes 2049) s)) m ∧
    m.load32 (0 + 1019872) = cellHeaderMagic ∧ CodesDiffer m 0 ∧ CellRep m 0 Ring.empty ∧
    ∀ d, DiesWithin m ⟨m, []⟩ (final (cellInit 0 cacheCellSize ⟨m, []⟩)) d →
      cellHeaderSane d (0 + 1019872) = false ∨ CellHolds chunkerLimits d 0 Ring.empty := by
  obtain ⟨s, -, hinit, -⟩ := insert_one
  obtain ⟨hsettled, hempty⟩ := cellInit_settled (zeroed_zero 0 (0 + cacheCellSize)) rfl hinit
  have hmagic : (entered s 0).mem.load32 (0 + 1019872) = cellHeaderMagic := by
    rw [(entered_agree s (by omega)).load32, hempty.magic]
  have hcodes := entered_codesDiffer hempty
  have hrep := hempty.shaped.entered_rep
  obtain ⟨s₁, hrun, hholds, hemits⟩ := hempty.addNew someBytes_sized.1 someBytes_sized.2 rfl
    (Ring.empty_add (.fill 1) someBytes_sized.2)
  obtain ⟨body, rfl, hbody⟩ := hemits.eq_after
  have hdies := dies_inserting hsettled hrun
    (fun e he => ((hbody e he).bodily hholds.inv.room).1) (List.nil_sublist body)
  exact ⟨s, (entered s 0).mem, hinit, hdies, hmagic, hcodes, hrep,
    (recovery_crash_iff hmagic hcodes).2 hrep⟩

/-- The first insertion dies before its exit code is durable, and the recovery from it when of the
header it has cleared no more than the counts and the integrity codes: the cell is taken as sane, counts
no entries, and still answers that it has the chunk. -/
theorem recovery_resurrects : ∃ s m d,
    cellInit 0 cacheCellSize ⟨fun _ => 0, []⟩ = .ok (cellAt 0) s ∧
    DiesWithin (fun _ => 0) s (final (cellAddChunk (cellAt 0) (.fill 1) (someBytes 2049) s)) m ∧
    m.load32 (0 + 1019872) = cellHeaderMagic ∧ CodesDiffer m 0 ∧
    DiesWithin m ⟨m, []⟩ (final (cellInit 0 cacheCellSize ⟨m, []⟩)) d ∧
    cellHeaderSane d (0 + 1019872) = true ∧ ¬ CellHolds chunkerLimits d 0 Ring.empty ∧
    cellEntryCount (cellAt 0) ⟨d, []⟩ = .ok 0 ⟨d, []⟩ ∧
    cellHasChunk (cellAt 0) (.fill 1) ⟨d, []⟩ = .ok true ⟨d, []⟩ := by
  obtain ⟨s, -, hinit, -⟩ := insert_one
  obtain ⟨hsettled, hempty⟩ := cellInit_settled (zeroed_zero 0 (0 + cacheCellSize)) rfl hinit
  obtain ⟨s₁, hrun, hholds, hemits⟩ := hempty.addNew someBytes_sized.1 someBytes_sized.2 rfl
    (Ring.empty_add (.fill 1) someBytes_sized.2)
  obtain ⟨hdies, hmagic, hcodes, hrep⟩ := insert_interrupted hsettled hempty hrun hemits hholds
  -- the counts and the codes are cleared, the magic and the directory are not
  let d := s₁.mem.write (0 + 1019872 + 4) (List.replicate 16 0)
  have hdir : DirRep d (0 + 1019872 + 28) (0 + 1019872)
      (Ring.empty.push (chunkOf (.fill 1) (someBytes 2049))).dir :=
    hrep.header.dir.congr (s₁.mem.write_agree _ _ (Or.inr (by rw [List.length_replicate]; omega)))
      (s₁.mem.write_agree _ _ (Or.inl (by omega)))
  have hhas : cellHasChunk (cellAt 0) (.fill 1) ⟨d, []⟩ = .ok true ⟨d, []⟩ := by
    rw [cellHasChunk_dir (s := ⟨d, []⟩) hdir hholds.inv]
    rfl
  have hcount : d.load32 (0 + 1019872 + 4) = 0 :=
    ((s₁.mem.write_zero (0 + 1019872 + 4) 16).mono (Nat.le_refl _) (by omega)).load32
  refine ⟨s, s₁.mem, d, hinit, hdies, hmagic, hcodes, recovery_clears hcodes (by omega),
    codesCleared_sane hmagic (by omega) (by omega) (by omega), ?_, ?_, hhas⟩
  · intro hnone
    have hempty := cellHasChunk_run (s := ⟨d, []⟩) hnone (.fill 1)
    rw [hhas] at hempty
    cases hempty
  · show EStateM.Result.ok (int32 (d.load32 (0 + 1019872 + 4))) _ = _
    rw [hcount]
    rfl

end Theo
