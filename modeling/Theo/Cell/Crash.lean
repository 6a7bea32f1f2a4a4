import Theo.Cell.Outcome
import Theo.Cell.Quiet
import Theo.Lib.Local
import Theo.Lib.Persist

set_option autoImplicit false

/-! # A crash during an insertion

The slab outlives the process. All that a completed call stores is durable; of what a call has stored when
the process dies, everything up to the last barrier is, and any part of the rest. The integrity codes
differ from the first barrier of an insertion to its last one, so that `cell_init` either finds the
cell as it was before or behind the call, or clears it (`add_crash_atomic`). -/

namespace Theo

open ByteMachine

/-- The cell answers look-ups on `t` as it does on `s`. -/
structure SameAnswers (cell : Cell) (s t : Store) : Prop where
  hasChunk : ∀ c, ∃ has, cellHasChunk cell c s = .ok has s ∧ cellHasChunk cell c t = .ok has t
  getChunk : ∀ c chunk, ∃ got, cellGetChunk cell c chunk s = .ok got s ∧
    cellGetChunk cell c chunk t = .ok got t

/-- The cell answers look-ups as an empty one does. -/
structure EmptyAnswers (cell : Cell) (t : Store) : Prop where
  hasChunk : ∀ c, cellHasChunk cell c t = .ok false t
  getChunk : ∀ c chunk, cellGetChunk cell c chunk t = .ok (false, chunk) t

/-- The process dies between `s` and `s'`, on a memory that was durably `m` when it started. -/
def DiesWithin (m : Mem) (s s' : Store) (d : Mem) : Prop :=
  ∃ log, s.log <+: log ∧ log <+: s'.log ∧ Durable m log d

/-- All that was stored since the memory was durably `m` is durable. -/
structure Settled (m : Mem) (s : Store) : Prop where
  mem : s.mem = replay m s.log
  barrier : ∃ es, s.log = es ++ [.barrier]

section

variable {l : Limits} {slab : Nat} {m d : Mem} {s s' t : Store} {r : Ring} {c : Checksum}
  {buffer : List UInt8} {es : List (Event Site)}

/-! ## Answers -/

theorem CellHolds.sameAnswers (h : CellHolds l s.mem slab r) (h' : CellHolds l t.mem slab r) :
    SameAnswers (cellAt slab) s t where
  hasChunk c := ⟨_, cellHasChunk_run h c, cellHasChunk_run h' c⟩
  getChunk c chunk := ⟨_, cellGetChunk_run h c chunk, cellGetChunk_run h' c chunk⟩

theorem CellHolds.emptyAnswers (h : CellHolds l t.mem slab Ring.empty) :
    EmptyAnswers (cellAt slab) t where
  hasChunk c := cellHasChunk_run h c
  getChunk c chunk := cellGetChunk_run h c chunk

/-! ## Recovery -/

/-- A slab that holds a cell is taken as it is. -/
theorem recover_holds (h : CellHolds l d slab r) :
    cellInit slab cacheCellSize ⟨d, []⟩ = .ok (cellAt slab) ⟨d, []⟩ := cellInit_sane h.sane

/-- A slab with different integrity codes is cleared. -/
theorem recover_codes (h : d.load32 (slab + 1019884) ≠ d.load32 (slab + 1019888)) : ∃ t,
    cellInit slab cacheCellSize ⟨d, []⟩ = .ok (cellAt slab) t ∧ EmptyAnswers (cellAt slab) t := by
  have hinsane : cellHeaderSane d (slab + 1019872) = false := by
    rw [Bool.eq_false_iff]
    intro hsane
    exact h ((cellHeaderSane_iff d).1 hsane).2
  obtain ⟨s₁, hrun, -, -, -, hholds⟩ := cellInit_insane (s := ⟨d, []⟩) slab chunkerLimits hinsane
  exact ⟨_, hrun, hholds.emptyAnswers⟩

/-! ## Completed calls -/

theorem Settled.crash (h : Settled m s) (hd : DiesWithin m s (s.after es) d) : Crash s.mem es d := by
  obtain ⟨log, ⟨pre, rfl⟩, hlog, hdurable⟩ := hd
  obtain ⟨settled, hsettled⟩ := h.barrier
  refine ⟨pre, (List.prefix_append_right_inj _).1 hlog, ?_⟩
  rw [hsettled, List.append_assoc, List.singleton_append] at hdurable
  have hmem : replay m settled = s.mem := by
    rw [h.mem, hsettled, replay_append]
    rfl
  rw [← hmem]
  exact (durable_barrier settled pre).1 hdurable

theorem Settled.after (h : Settled m s) (es : List (Event Site)) :
    Settled m (s.after (es ++ [.barrier])) where
  mem := by
    show replay s.mem (es ++ [.barrier]) = replay m (s.log ++ (es ++ [.barrier]))
    rw [replay_append m, ← h.mem]
  barrier := ⟨s.log ++ es, (List.append_assoc _ _ _).symm⟩

/-- The first events on a machine. -/
theorem settled_start (hlog : s.log = []) (es : List (Event Site)) :
    Settled s.mem (s.after (es ++ [.barrier])) where
  mem := by
    show replay s.mem (es ++ [.barrier]) = replay s.mem (s.log ++ (es ++ [.barrier]))
    rw [hlog, List.nil_append]
  barrier := ⟨s.log ++ es, (List.append_assoc _ _ _).symm⟩

/-! ## An interrupted insertion -/

/-- The store of `cell_ic_on_entry`. -/
def entryStore (s : Store) (slab : Nat) : Event Site :=
  .store .integrity (slab + 1019884) (Mem.bytes32 (u32 (s.mem.load32 (slab + 1019884) + 1)))

/-- The store of `cell_ic_on_exit`. -/
def exitStore (s : Store) (slab : Nat) : Event Site :=
  .store .integrity (slab + 1019888) (Mem.bytes32 (s.mem.load32 (slab + 1019884)))

theorem entered_eq (s : Store) (slab : Nat) :
    entered s slab = s.after [entryStore s slab, .barrier] := by
  rw [entered, Machine.store32_after, Machine.emit_after, Machine.after_append]
  rfl

theorem left_eq (s : Store) (slab : Nat) :
    left s slab = s.after [.barrier, exitStore s slab, .barrier] := by
  rw [left, Machine.emit_after, Machine.store32_after, Machine.emit_after, Machine.after_append,
    Machine.after_append]
  rfl

theorem initialised_eq (s : Store) (slab : Nat) : initialised s slab =
    s.after [.barrier, .store .header (slab + 1019872) (Mem.bytes32 cellHeaderMagic), .barrier] := by
  rw [initialised, Machine.emit_after, Machine.store32_after, Machine.emit_after,
    Machine.after_append, Machine.after_append]
  rfl

/-- The integrity codes say that the cell is being changed. -/
def CodesDiffer (m : Mem) (slab : Nat) : Prop :=
  m.load32 (slab + 1019884) ≠ m.load32 (slab + 1019888)

theorem CodesDiffer.congr {m' : Mem} (h : CodesDiffer m slab)
    (hagree : m.Agree m' (slab + 1019884) (slab + 1019892)) : CodesDiffer m' slab := by
  rw [CodesDiffer, (hagree.mono (by omega) (by omega)).load32,
    (hagree.mono (by omega) (by omega)).load32]
  exact h

/-- An event that is no barrier and leaves the integrity codes alone. -/
def Bodily (slab : Nat) (e : Event Site) : Prop :=
  e ≠ .barrier ∧ e.Avoids (slab + 1019884) (slab + 1019892)

theorem AddEvent.bodily {visits : Nat → Prop} {top overflow : Nat} {e : Event Site}
    (h : AddEvent slab visits top overflow e) (htop : top + 36 * overflow ≤ 1019836) :
    Bodily slab e := by
  refine ⟨?_, h.avoids htop (by omega)⟩
  rcases h with h | (h | h | h | h) | h | ⟨_, _, -, rfl⟩ | ⟨_, -, rfl⟩
  · exact h.ne_barrier
  · exact h.ne_barrier
  · exact h.ne_barrier
  · exact h.ne_barrier
  · exact h.ne_barrier
  · exact h.ne_barrier
  · intro hbarrier
    cases hbarrier
  · intro hbarrier
    cases hbarrier

theorem entered_codesDiffer (h : CellHolds l s.mem slab r) : CodesDiffer (entered s slab).mem slab := by
  have hlt := Mem.load32_lt s.mem (slab + 1019888)
  have hexit : (entered s slab).mem.load32 (slab + 1019888) = s.mem.load32 (slab + 1019888) :=
    (entered_agree s (by omega)).load32
  rw [CodesDiffer, hexit, Machine.mem_emit_barrier, Machine.load32_store32, h.codes, u32]
  omega

/-- Up to the exit code, a crash leaves the cell as it was or its codes different. -/
theorem crash_insert (h : CellHolds l s.mem slab r) {body : List (Event Site)}
    (hbody : ∀ e ∈ body, Bodily slab e)
    (hcrash : Crash s.mem ([entryStore s slab] ++ .barrier :: body) d) :
    d = s.mem ∨ CodesDiffer d slab := by
  have hdiffer := entered_codesDiffer h
  rcases crash_barrier hcrash with hentry | hinside
  · rcases crash_store hentry with hsame | rfl
    · exact Or.inl hsame
    · exact Or.inr hdiffer
  · obtain ⟨kept, hkept, rfl⟩ := (crash_of_no_barrier fun e he => (hbody e he).1).1 hinside
    exact Or.inr (hdiffer.congr (replay_agree fun e he => (hbody e (hkept.subset he)).2))

/-- A crash in an insertion that would have returned. -/
theorem crash_insert_ok (h : CellHolds l s.mem slab r) {body : List (Event Site)}
    (hbody : ∀ e ∈ body, Bodily slab e) {s₁ : Store} (hs₁ : s₁ = (entered s slab).after body)
    (hcrash : Crash s.mem (([entryStore s slab] ++ .barrier :: body) ++
      .barrier :: ([exitStore s₁ slab] ++ .barrier :: [])) d) :
    d = s.mem ∨ CodesDiffer d slab ∨ d = (left s₁ slab).mem := by
  have hmem : replay s.mem ([entryStore s slab] ++ .barrier :: body) = s₁.mem := by
    rw [hs₁]
    rfl
  have hdiffer : CodesDiffer s₁.mem slab := by
    rw [hs₁]
    exact (entered_codesDiffer h).congr (replay_agree fun e he => (hbody e he).2)
  rcases crash_barrier hcrash with hfront | hexit
  · rcases crash_insert h hbody hfront with hsame | hcodes
    · exact Or.inl hsame
    · exact Or.inr (Or.inl hcodes)
  right
  rw [hmem] at hexit
  rcases crash_barrier hexit with hstored | hlast
  · rcases crash_store hstored with rfl | hdone
    · exact Or.inl hdiffer
    · exact Or.inr hdone
  · exact Or.inr (crash_nil hlast)

/-! ## Runs -/

theorem cellInit_settled (hz : s.mem.Zero slab (slab + cacheCellSize)) (hlog : s.log = [])
    (hinit : cellInit slab cacheCellSize s = .ok (cellAt slab) s') :
    Settled s.mem s' ∧ CellHolds chunkerLimits s'.mem slab Ring.empty := by
  obtain ⟨s₁, hrun, hemits, -, -, hholds⟩ :=
    cellInit_insane slab chunkerLimits (cellHeaderSane_zero hz)
  rw [hinit, EStateM.Result.ok.injEq] at hrun
  rw [hrun.2]
  obtain ⟨es, rfl, -⟩ := hemits.eq_after
  refine ⟨?_, hholds⟩
  have hsettled := settled_start hlog
    (es ++ [.barrier, .store .header (slab + 1019872) (Mem.bytes32 cellHeaderMagic)])
  rw [List.append_assoc, ← Machine.after_append] at hsettled
  rw [initialised_eq]
  exact hsettled

/-- An insertion that returned has made all that it stored durable. -/
theorem cellAddChunk_settled {added : Bool} (hs : Settled m s)
    (h : CellHolds chunkerLimits s.mem slab r) (hlo : 2049 ≤ buffer.length)
    (hhi : buffer.length ≤ 24576) (hadd : cellAddChunk (cellAt slab) c buffer s = .ok added s') :
    Settled m s' ∧ ∃ r', CellHolds chunkerLimits s'.mem slab r' := by
  rcases chunker_cases h hlo hhi with ⟨-, hrun⟩ | ⟨-, r', s₁, -, hrun, hholds, hemits⟩ |
      ⟨-, -, s₁, hrun, -⟩
  · rw [hrun, EStateM.Result.ok.injEq] at hadd
    rw [← hadd.2]
    exact ⟨hs, r, h⟩
  · rw [hrun, EStateM.Result.ok.injEq] at hadd
    rw [← hadd.2]
    obtain ⟨body, rfl, -⟩ := hemits.eq_after
    refine ⟨?_, r', hholds⟩
    have hsettled := hs.after ([entryStore s slab, .barrier] ++
      (body ++ [.barrier, exitStore ((entered s slab).after body) slab]))
    rw [List.append_assoc, List.append_assoc, ← Machine.after_append, ← Machine.after_append,
      ← entered_eq] at hsettled
    rw [left_eq]
    exact hsettled
  · rw [hrun] at hadd
    cases hadd

theorem addChunks_settled {adds : List (Checksum × List UInt8)} (hs : Settled m s)
    (h : CellHolds chunkerLimits s.mem slab r)
    (hsized : ∀ add ∈ adds, 2049 ≤ add.2.length ∧ add.2.length ≤ 24576)
    (hadds : addChunks (cellAt slab) adds s = .ok () s') :
    Settled m s' ∧ ∃ r', CellHolds chunkerLimits s'.mem slab r' := by
  induction adds generalizing s r with
  | nil =>
      rw [addChunks, pure_run, EStateM.Result.ok.injEq] at hadds
      rw [← hadds.2]
      exact ⟨hs, r, h⟩
  | cons add adds ih =>
      obtain ⟨hfirst, hrest⟩ := List.forall_mem_cons.1 hsized
      obtain ⟨added, s₁, hadd, hmore⟩ := of_bind_ok hadds
      obtain ⟨hs₁, r₁, h₁⟩ := cellAddChunk_settled hs h hfirst.1 hfirst.2 hadd
      exact ih hs₁ h₁ hrest hmore

/-- What a crash during an insertion leaves is the slab before it, that behind it, or one that
`cell_init` clears. -/
theorem crash_addChunk (hs : Settled m s) (h : CellHolds chunkerLimits s.mem slab r)
    (hlo : 2049 ≤ buffer.length) (hhi : buffer.length ≤ 24576)
    (hcrash : DiesWithin m s (final (cellAddChunk (cellAt slab) c buffer s)) d) :
    d = s.mem ∨ CodesDiffer d slab ∨ ∃ s' r', cellAddChunk (cellAt slab) c buffer s = .ok true s' ∧
      CellHolds chunkerLimits s'.mem slab r' ∧ d = s'.mem := by
  rcases chunker_cases h hlo hhi with ⟨-, hrun⟩ | ⟨-, r', s₁, -, hrun, hholds, hemits⟩ |
      ⟨-, -, s₁, hrun, hemits⟩
  · have hnothing : DiesWithin m s (s.after []) d := by
      rw [Machine.after_nil]
      rwa [hrun] at hcrash
    exact Or.inl (crash_nil (hs.crash hnothing))
  · have hroom := hholds.inv.room
    obtain ⟨body, hs₁, hbody⟩ := hemits.eq_after
    rw [hrun, final] at hcrash
    have hevents : left s₁ slab = s.after (([entryStore s slab] ++ .barrier :: body) ++
        .barrier :: ([exitStore s₁ slab] ++ .barrier :: [])) := by
      rw [left_eq, hs₁, entered_eq, Machine.after_append, Machine.after_append, List.append_assoc]
      rfl
    rw [hevents] at hcrash
    rcases crash_insert_ok h (fun e he => (hbody e he).bodily hroom) hs₁ (hs.crash hcrash) with
      hsame | hdiffer | hdone
    · exact Or.inl hsame
    · exact Or.inr (Or.inl hdiffer)
    · exact Or.inr (Or.inr ⟨_, r', hrun, hholds, hdone⟩)
  · have hroom := h.inv.room
    obtain ⟨body, hs₁, hbody⟩ := hemits.eq_after
    rw [hrun, final, hs₁, entered_eq, Machine.after_append] at hcrash
    rcases crash_insert h (fun e he => (hbody e he).bodily (by omega)) (hs.crash hcrash) with
      hsame | hdiffer
    · exact Or.inl hsame
    · exact Or.inr (Or.inl hdiffer)

/-- An insertion is atomic under a crash: whatever is durable when the process dies, `cell_init` makes
of it a cell with the answers from before the call, from behind it, or of an empty cell. -/
theorem add_crash_atomic {s₁ : Store} {adds : List (Checksum × List UInt8)}
    (hz : m.Zero slab (slab + cacheCellSize))
    (hinit : cellInit slab cacheCellSize ⟨m, []⟩ = .ok (cellAt slab) s₁)
    (hsized : ∀ add ∈ adds, 2049 ≤ add.2.length ∧ add.2.length ≤ 24576)
    (hadds : addChunks (cellAt slab) adds s₁ = .ok () s) (hlo : 2049 ≤ buffer.length)
    (hhi : buffer.length ≤ 24576)
    (hcrash : DiesWithin m s (final (cellAddChunk (cellAt slab) c buffer s)) d) : ∃ t,
      cellInit slab cacheCellSize ⟨d, []⟩ = .ok (cellAt slab) t ∧
      (SameAnswers (cellAt slab) s t ∨ EmptyAnswers (cellAt slab) t ∨
        ∃ added s', cellAddChunk (cellAt slab) c buffer s = .ok added s' ∧
          SameAnswers (cellAt slab) s' t) := by
  obtain ⟨hs₁, h₁⟩ := cellInit_settled (s := ⟨m, []⟩) hz rfl hinit
  obtain ⟨hs, r, h⟩ := addChunks_settled hs₁ h₁ hsized hadds
  rcases crash_addChunk hs h hlo hhi hcrash with rfl | hdiffer | ⟨s', r', hadd, h', rfl⟩
  · exact ⟨_, recover_holds h, Or.inl (h.sameAnswers h)⟩
  · obtain ⟨t, hrecover, hempty⟩ := recover_codes hdiffer
    exact ⟨t, hrecover, Or.inr (Or.inl hempty)⟩
  · exact ⟨_, recover_holds h', Or.inr (Or.inr ⟨true, s', hadd, h'.sameAnswers h'⟩)⟩

/-! ## What a crash may leave -/

theorem cellHeaderEntryCount_congr {m m' : Mem} (h : m.Agree m' (slab + 1019876) (slab + 1019880)) :
    cellHeaderEntryCount m' (slab + 1019872) = cellHeaderEntryCount m (slab + 1019872) := by
  rw [cellHeaderEntryCount, cellHeaderEntryCount, entryCountPtr, h.load32]

/-- The entry that a body starts with. -/
theorem CellRep.first_size {m : Mem} {n : Nat} (h : CellRep m slab r)
    (hfirst : r.entries.head?.map Entry.size = some n) : (entryBits m slab).size = n := by
  obtain ⟨e, he, rfl⟩ := Option.map_eq_some_iff.1 hfirst
  obtain ⟨es, hes⟩ := List.head?_eq_some_iff.1 he
  have hbody := h.body
  rw [hes] at hbody
  rw [hbody.1.bits]

/-- Any part of what an insertion stores between its two codes may be durable when the process dies
in front of the second. -/
theorem dies_inserting {body kept : List (Event Site)} (hs : Settled m s)
    (hrun : cellAddChunk (cellAt slab) c buffer s =
      .ok true (left ((entered s slab).after body) slab))
    (hbody : ∀ e ∈ body, e ≠ .barrier) (hkept : kept.Sublist body) :
    DiesWithin m s (final (cellAddChunk (cellAt slab) c buffer s))
      (replay (entered s slab).mem kept) := by
  refine ⟨(s.log ++ [entryStore s slab, .barrier]) ++ body, ?_, ?_, ?_⟩
  · rw [List.append_assoc]
    exact List.prefix_append _ _
  · rw [hrun, final, left_eq, entered_eq]
    exact List.prefix_append _ _
  · refine ⟨s.log ++ [entryStore s slab, .barrier], body, kept, rfl, Or.inr ?_, hbody, hkept, ?_⟩
    · rw [List.getLast?_append]
      rfl
    · rw [replay_append, ← hs.mem]
      rfl

/-- A store in front of `hi`. -/
def inFront (hi : Nat) : Event Site → Bool
  | .store _ addr _ => decide (addr < hi)
  | _ => false

theorem inFront_avoids {hi : Nat} {e : Event Site} (h : inFront hi e = false) (lo : Nat) :
    e.Avoids lo hi := by
  cases e with
  | store site addr bytes => exact Or.inl (Nat.le_of_not_lt (of_decide_eq_false h))
  | barrier => trivial
  | mark note => trivial

/-- Of the stores of an insertion those in front of the header do not reach into it. -/
theorem AddEvent.avoids_header {visits : Nat → Prop} {top overflow : Nat} {e : Event Site}
    (h : AddEvent slab visits top overflow e) (htop : top + 36 * overflow ≤ 1019836)
    (hfront : inFront (slab + 1019872) e = true) :
    e.Avoids (slab + 1019872) (slab + 1048576) := by
  -- what begins behind the start of the header is none of them
  have hbehind : ∀ site lo hi, e.StoreIn site lo hi → slab + 1019872 ≤ lo →
      e.Avoids (slab + 1019872) (slab + 1048576) := by
    rintro site lo hi ⟨addr, bytes, rfl, hlo, -⟩ hge
    exact absurd (of_decide_eq_true hfront) (by omega)
  rcases h with h | (h | h | h | h) | h | ⟨_, _, -, rfl⟩ | ⟨_, -, rfl⟩
  · exact h.avoids (by omega)
  · exact hbehind _ _ _ h (by omega)
  · exact hbehind _ _ _ h (by omega)
  · exact h.avoids (by omega)
  · exact h.avoids (by omega)
  · exact hbehind _ _ _ h (by omega)
  · trivial
  · trivial

/-- A process may die in an insertion with what it stored in front of the header durable, and of what it
stored in the header only the code of the entry. -/
theorem dies_in_front {visits : Nat → Prop} {top overflow : Nat} {s₁ : Store} (hs : Settled m s)
    (hrun : cellAddChunk (cellAt slab) c buffer s = .ok true (left s₁ slab))
    (hemits : Emits (AddEvent slab visits top overflow) (entered s slab) s₁)
    (htop : top + 36 * overflow ≤ 1019836) : ∃ d,
      DiesWithin m s (final (cellAddChunk (cellAt slab) c buffer s)) d ∧
      s₁.mem.Agree d slab (slab + 1019872) ∧
      (entered s slab).mem.Agree d (slab + 1019872) (slab + 1048576) := by
  obtain ⟨body, rfl, hbody⟩ := hemits.eq_after
  refine ⟨replay (entered s slab).mem (body.filter (inFront (slab + 1019872))), ?_, ?_, ?_⟩
  · exact dies_inserting hs hrun (fun e he => ((hbody e he).bodily htop).1) List.filter_sublist
  · exact replay_filter (Mem.Agree.refl _ _ _) fun e _ he => inFront_avoids he _
  · refine replay_agree fun e he => ?_
    obtain ⟨hmem, hfront⟩ := List.mem_filter.1 he
    exact (hbody e hmem).avoids_header htop hfront

end

/-- A process that dies when it has overwritten twelve chunks of a lap with one, and none of what it
changed in the counts and the directory is durable. -/
theorem add_crash_atomic_overwriting : ∃ s₀ s s' d t,
    cellInit 0 cacheCellSize ⟨fun _ => 0, []⟩ = .ok (cellAt 0) s₀ ∧
    addChunks (cellAt 0) (withBytes lapWithOverflow) s₀ = .ok () s ∧
    cellAddChunk (cellAt 0) (.numbered 52 52) (someBytes 24576) s = .ok true s' ∧
    DiesWithin (fun _ => 0) s s' d ∧
    (entryBits s.mem 0).size = 2049 ∧ (entryBits s'.mem 0).size = 24576 ∧
    (entryBits d 0).size = 24576 ∧
    cellEntryCount (cellAt 0) s = .ok 52 s ∧ cellEntryCount (cellAt 0) s' = .ok 41 s' ∧
    cellEntryCount (cellAt 0) ⟨d, []⟩ = .ok 52 ⟨d, []⟩ ∧
    cellInit 0 cacheCellSize ⟨d, []⟩ = .ok (cellAt 0) t ∧
    (SameAnswers (cellAt 0) s t ∨ EmptyAnswers (cellAt 0) t ∨ ∃ added s',
      cellAddChunk (cellAt 0) (.numbered 52 52) (someBytes 24576) s = .ok added s' ∧
        SameAnswers (cellAt 0) s' t) := by
  obtain ⟨s₀, s, s₁, hinit, hadds, -, hholds, hadd, hholds', hemits⟩ := overwrite_many
  have hz := zeroed_zero 0 (0 + cacheCellSize)
  obtain ⟨hsettled₀, hempty⟩ := cellInit_settled hz rfl hinit
  have hsized : ∀ add ∈ withBytes lapWithOverflow, EmittedSize add.2 := withBytes_sized (by decide)
  obtain ⟨hsettled, -⟩ := addChunks_settled hsettled₀ hempty hsized hadds
  obtain ⟨d, hcrash, hfront, hheader⟩ := dies_in_front hsettled hadd hemits hholds'.inv.room
  obtain ⟨hlo, hhi⟩ := someBytes_largest
  obtain ⟨t, hrecover, hanswers⟩ := add_crash_atomic hz hinit hsized hadds hlo hhi hcrash
  rw [hadd, final] at hcrash
  have hcount : liveCount ringWithOverflow.entries = 52 := by decide +kernel
  have hcount' : liveCount ringOverwritten.entries = 41 := by decide +kernel
  have hfirst : ringWithOverflow.entries.head?.map Entry.size = some 2049 := by decide +kernel
  have hfirst' : ringOverwritten.entries.head?.map Entry.size = some 24576 := by decide +kernel
  have hsize' := hholds'.rep.first_size hfirst'
  refine ⟨s₀, s, _, d, t, hinit, hadds, hadd, hcrash, hholds.rep.first_size hfirst, hsize', ?_, ?_,
    ?_, ?_, hrecover, hanswers⟩
  · -- the new entry is durable
    rw [← hsize', entryBits_congr (left_agree s₁ (by omega)),
      entryBits_congr (hfront.mono (by omega) (by omega))]
  · show EStateM.Result.ok (cellHeaderEntryCount s.mem (0 + 1019872)) s = _
    rw [hholds.counts.1, hcount]
    rfl
  · show EStateM.Result.ok (cellHeaderEntryCount (left s₁ 0).mem (0 + 1019872)) _ = _
    rw [hholds'.counts.1, hcount']
    rfl
  · -- the count is not
    have hsame : s.mem.Agree d (0 + 1019876) (0 + 1019880) :=
      (entered_agree s (by omega)).trans (hheader.mono (by omega) (by omega))
    show EStateM.Result.ok (cellHeaderEntryCount d (0 + 1019872)) _ = _
    rw [cellHeaderEntryCount_congr hsame, hholds.counts.1, hcount]
    rfl

end Theo
