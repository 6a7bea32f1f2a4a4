import Theo.Cache.Calls
import Theo.Cell.Crash
import Theo.Lib.Objects

set_option autoImplicit false

/-! # Threads that use one cache

Each call on a cell holds its mutex from beginning to end. The cells are objects behind locks
(`cacheObjects`), so that whatever any number of threads do, their calls are answered as if they had
been made one after the other, in the order in which they got their mutexes
(`CacheHolds.linearizable`). -/

namespace Theo

open ByteMachine BucketIndex

/-- What a call does on a memory, and its answer if it returns. -/
def Cache.performs (cache : Cache) (call : CacheCall) (m : Mem) :
    List (Event Site) × Option Answer :=
  match cache.call call ⟨m, []⟩ with
  | .ok answer s => (s.log, some answer)
  | .error _ s => (s.log, none)

/-- Cell `i` of a cache of `n` cells holds the ring `r`. -/
structure CellIn (base n i : Nat) (r : Ring) (m : Mem) : Prop where
  magic : cacheMagic m base = cacheHeaderMagic
  count : cacheCellCount m base = n
  holds : CellHolds chunkerLimits m (slabOf base i) r
  placed : ∀ c, r.lookup c ≠ none → c.part % n = i

/-- The cells of a cache. The slot of the header is read by every call. -/
def cacheObjects (base n : Nat) : Objects Nat Site CacheCall Answer Ring where
  index := CacheCall.index n
  lo := slabOf base
  hi i := slabOf base i + cacheCellSize
  fixedLo := base
  fixedHi := base + cacheCellSize
  Allowed call := call.Sized 2049 24576
  run := (cacheAt base n).performs
  spec r call := r.call call.onCell
  Rep i r m := i < n → CellIn base n i r m
  Torn i m := CodesDiffer m (slabOf base i)

/-- What any number of threads make of a memory. -/
abbrev Interleaved (base n : Nat) (m : Mem) (σ : Locked Nat Site CacheCall Answer) : Prop :=
  Relation.ReflTransGen (cacheObjects base n).Step (Locked.start m) σ

/-! ## Each call by itself -/

section

variable {slab base n i : Nat} {s s' : Store} {r r' : Ring} {c : Checksum} {buffer : List UInt8}

/-- What an insertion stores: a code, the chunk, and the other code. -/
theorem cellAddChunk_events (h : CellHolds chunkerLimits s.mem slab r) (hlo : 2049 ≤ buffer.length)
    (hhi : buffer.length ≤ 24576) (hfresh : r.lookup c = none)
    (hadd : r.add (chunkOf c buffer) = some r') : ∃ body,
      cellAddChunk (cellAt slab) c buffer s =
        .ok true (s.after (([entryStore s slab] ++ .barrier :: body) ++
          .barrier :: ([exitStore ((entered s slab).after body) slab] ++ .barrier :: []))) ∧
      (∀ e ∈ body, Bodily slab e ∧ Inside slab e) ∧
      CellHolds chunkerLimits (left ((entered s slab).after body) slab).mem slab r' := by
  obtain ⟨s₁, hrun, hholds, hemits⟩ := h.addNew hlo hhi hfresh hadd
  have hroom := hholds.inv.room
  obtain ⟨body, rfl, hbody⟩ := hemits.eq_after
  refine ⟨body, ?_, fun e he => ⟨(hbody e he).bodily hroom, (hbody e he).inside hroom⟩, hholds⟩
  rw [hrun, left_eq, entered_eq, Machine.after_append, Machine.after_append, List.append_assoc]
  rfl

/-- What a crash in an insertion may leave. -/
theorem cellAddChunk_takes (h : CellHolds chunkerLimits s.mem slab r) (hlo : 2049 ≤ buffer.length)
    (hhi : buffer.length ≤ 24576) (hfresh : r.lookup c = none)
    (hadd : r.add (chunkOf c buffer) = some r') :
    ∃ es, cellAddChunk (cellAt slab) c buffer s = .ok true (s.after es) ∧
      (∀ e ∈ es, Inside slab e) ∧ CellHolds chunkerLimits (replay s.mem es) slab r' ∧ Ended es ∧
      ∀ d, Crash s.mem es d → d = s.mem ∨ CodesDiffer d slab ∨ d = replay s.mem es := by
  obtain ⟨body, hrun, hbody, hholds⟩ := cellAddChunk_events h hlo hhi hfresh hadd
  have hall : left ((entered s slab).after body) slab =
      s.after (([entryStore s slab] ++ .barrier :: body) ++
        .barrier :: ([exitStore ((entered s slab).after body) slab] ++ .barrier :: [])) := by
    rw [left_eq, entered_eq, Machine.after_append, Machine.after_append, List.append_assoc]
    rfl
  have hinside : Emits (Inside slab) s (left ((entered s slab).after body) slab) :=
    ((entered_inside s).trans ⟨body, rfl, rfl, fun e he => (hbody e he).2⟩).trans (left_inside _)
  obtain ⟨es, hes, hevents⟩ := hinside.eq_after
  rw [hall] at hes hholds
  have heq := Machine.after_inj hes
  refine ⟨_, hrun, heq ▸ hevents, hholds, Or.inr (by rw [List.getLast?_append]; rfl), fun d hcrash => ?_⟩
  rcases crash_insert_ok h (fun e he => (hbody e he).1) rfl hcrash with hsame | hdiffer | hdone
  · exact Or.inl hsame
  · exact Or.inr (Or.inl hdiffer)
  · refine Or.inr (Or.inr ?_)
    rw [hdone, hall]
    rfl

/-- An insertion that aborts. -/
theorem cellAddChunk_aborts (h : CellHolds chunkerLimits s.mem slab r) (hlo : 2049 ≤ buffer.length)
    (hhi : buffer.length ≤ 24576) (hfresh : r.lookup c = none)
    (hadd : r.add (chunkOf c buffer) = none) :
    ∃ es, cellAddChunk (cellAt slab) c buffer s = .error .always (s.after es) ∧
      (∀ e ∈ es, Inside slab e) ∧ ∀ d, Crash s.mem es d → d = s.mem ∨ CodesDiffer d slab := by
  rcases chunker_cases h hlo hhi (c := c) with ⟨hfound, -⟩ | ⟨-, r₁, s₁, hsome, -⟩ |
      ⟨-, -, s₁, hrun, hemits⟩
  · exact absurd hfresh hfound
  · rw [hadd] at hsome
    cases hsome
  · have hroom := h.inv.room
    obtain ⟨body, hs₁, hbody⟩ := hemits.eq_after
    have hinside : Emits (Inside slab) s s₁ :=
      (entered_inside s).trans (hemits.mono fun e he => he.inside (by omega))
    obtain ⟨es, hes, hall⟩ := hinside.eq_after
    have hevents : s₁ = s.after ([entryStore s slab] ++ .barrier :: body) := by
      rw [hs₁, entered_eq, Machine.after_append]
      rfl
    rw [hes] at hevents
    refine ⟨es, by rw [hrun, hes], hall, fun d hcrash => ?_⟩
    rw [Machine.after_inj hevents] at hcrash
    exact crash_insert h (fun e he => (hbody e he).bodily (by omega)) hcrash

/-- A call that returns, on the ring and on the cell. -/
theorem Cell.call_takes (h : CellHolds chunkerLimits s.mem slab r) {call : Call}
    (hsized : call.Sized 2049 24576) {answer : Answer} (hcall : r.call call = some (answer, r')) :
    ∃ es, (cellAt slab).call call s = .ok answer (s.after es) ∧ (∀ e ∈ es, Inside slab e) ∧
      CellHolds chunkerLimits (replay s.mem es) slab r' ∧ Ended es ∧
      ∀ d, Crash s.mem es d → d = s.mem ∨ CodesDiffer d slab ∨ d = replay s.mem es := by
  have hnothing : ∀ {answer' r₁}, (cellAt slab).call call s = .ok answer' s →
      some (answer', r) = some (answer, r₁) →
      ∃ es, (cellAt slab).call call s = .ok answer (s.after es) ∧ (∀ e ∈ es, Inside slab e) ∧
        CellHolds chunkerLimits (replay s.mem es) slab r₁ ∧ Ended es ∧
        ∀ d, Crash s.mem es d → d = s.mem ∨ CodesDiffer d slab ∨ d = replay s.mem es := by
    intro answer' r₁ hrun heq
    rw [Option.some.injEq, Prod.mk.injEq] at heq
    obtain ⟨rfl, rfl⟩ := heq
    exact ⟨[], by rw [hrun, Machine.after_nil], fun e he => absurd he List.not_mem_nil, h, Or.inl rfl,
      fun d hcrash => Or.inl (crash_nil hcrash)⟩
  cases call with
  | addChunk c buffer =>
      rw [Ring.call, Ring.insert] at hcall
      cases hlookup : r.lookup c with
      | some data =>
          rw [hlookup] at hcall
          have hfound : r.dir.find c ≠ none := by
            rw [Ne, h.inv.find_eq_none, hlookup]
            exact Option.some_ne_none _
          exact hnothing (bind_ok (cellAddChunk_found h.shaped hfound buffer) _) hcall
      | none =>
          rw [hlookup, Option.map_map, Option.map_eq_some_iff] at hcall
          obtain ⟨r₁, hadd, heq⟩ := hcall
          simp only [Function.comp_apply, Prod.mk.injEq] at heq
          obtain ⟨rfl, rfl⟩ := heq
          obtain ⟨es, hrun, htakes⟩ := cellAddChunk_takes h hsized.1 hsized.2 hlookup hadd
          exact ⟨es, bind_ok hrun _, htakes⟩
  | hasChunk c => exact hnothing (bind_ok (cellHasChunk_run h c) _) hcall
  | getChunk c chunk => exact hnothing (bind_ok (cellGetChunk_run h c chunk) _) hcall
  | entryCount =>
      refine hnothing ?_ hcall
      rw [← h.counts.1]
      rfl
  | byteCount =>
      refine hnothing ?_ hcall
      rw [← h.counts.2]
      rfl

/-- A call that aborts. -/
theorem Cell.call_aborts (h : CellHolds chunkerLimits s.mem slab r) {call : Call}
    (hsized : call.Sized 2049 24576) (hcall : r.call call = none) :
    ∃ es, (cellAt slab).call call s = .error .always (s.after es) ∧ (∀ e ∈ es, Inside slab e) ∧
      ∀ d, Crash s.mem es d → d = s.mem ∨ CodesDiffer d slab := by
  cases call with
  | addChunk c buffer =>
      rw [Ring.call, Ring.insert] at hcall
      cases hlookup : r.lookup c with
      | some data =>
          rw [hlookup] at hcall
          cases hcall
      | none =>
          rw [hlookup, Option.map_map, Option.map_eq_none_iff] at hcall
          obtain ⟨es, hrun, haborts⟩ := cellAddChunk_aborts h hsized.1 hsized.2 hlookup hcall
          exact ⟨es, bind_error hrun _, haborts⟩
  | hasChunk c => cases hcall
  | getChunk c chunk => cases hcall
  | entryCount => cases hcall
  | byteCount => cases hcall

theorem cacheGetCellIndex_own (hcount : cacheCellCount s.mem base = n) (hn : 1 ≤ n) (c : Checksum) :
    cacheGetCellIndex (cacheAt base n) c s = .ok (cellAt (slabOf base (c.part % n))) s := by
  have hlt : c.part % n < n := Nat.mod_lt _ hn
  rw [cacheGetCellIndex, cacheAt, load_bind, hcount, List.getElem?_map, List.getElem?_range hlt]
  rfl

/-- A call on a cache is the call on its cell. -/
theorem Cache.call_own (hcount : cacheCellCount s.mem base = n) (hn : 1 ≤ n) (call : CacheCall) :
    (cacheAt base n).call call s =
      (cellAt (slabOf base (call.index n))).call call.onCell s := by
  have hcell := cacheGetCellIndex_own hcount hn
  cases call with
  | addChunk c buffer =>
      rw [Cache.call, cacheAddChunk, bind_assoc, bind_ok (hcell c)]
      rfl
  | hasChunk c =>
      rw [Cache.call, cacheHasChunk, bind_assoc, bind_ok (hcell c)]
      rfl
  | getChunk c chunk =>
      rw [Cache.call, cacheGetChunk, bind_assoc, bind_ok (hcell c)]
      rfl

/-! ## The cells as objects -/

theorem Inside.object {e : Event Site} (h : Inside (slabOf base i) e) (n : Nat) :
    (cacheObjects base n).Inside i e := by
  have hbase := base_add_le base i
  refine ⟨h _ _ (Or.inl hbase), fun j hj => h _ _ ?_⟩
  rcases Nat.lt_or_gt_of_ne hj with hlt | hlt
  · exact Or.inl (slabOf_add_le base hlt)
  · exact Or.inr (slabOf_add_le base hlt)

/-- The words of the header. -/
theorem header_same {m m' : Mem} (h : m.Agree m' base (base + cacheCellSize)) :
    cacheMagic m' base = cacheMagic m base ∧ cacheCellCount m' base = cacheCellCount m base := by
  have hsize : (16 : Nat) ≤ cacheCellSize := by decide
  exact ⟨(h.mono (Nat.le_refl _) (by omega)).load64, (h.mono (by omega) (by omega)).load64⟩

theorem CellIn.same {m m' : Mem} (h : CellIn base n i r m) (hsame : (cacheObjects base n).Same i m m') :
    CellIn base n i r m' where
  magic := (header_same hsame.2).1.trans h.magic
  count := (header_same hsame.2).2.trans h.count
  holds := h.holds.congr hsame.1
  placed := h.placed

theorem codesDiffer_same {m m' : Mem} (h : CodesDiffer m (slabOf base i))
    (hsame : (cacheObjects base n).Same i m m') : CodesDiffer m' (slabOf base i) := by
  have hslab : m.Agree m' (slabOf base i) (slabOf base i + 1048576) := hsame.1
  exact h.congr (hslab.mono (by omega) (by omega))

/-- A look-up of a chunk needs the cell of its checksum only. -/
theorem CellIn.getChunk {c : Checksum} (h : CellIn base n (c.part % n) r s.mem) (hn : 1 ≤ n)
    (chunk : Chunk) :
    cacheGetChunk (cacheAt base n) c chunk s = .ok (fetched c chunk (r.lookup c)) s := by
  rw [cacheGetChunk, bind_ok (cacheGetCellIndex_own h.count hn c)]
  exact cellGetChunk_run h.holds c chunk

/-- What a call on the cache does is what the call on its cell does. -/
theorem Cache.performs_cell {m : Mem} {call : CacheCall} {es : List (Event Site)}
    (hcount : cacheCellCount m base = n) (hn : 1 ≤ n) :
    (∀ answer, (cellAt (slabOf base (call.index n))).call call.onCell ⟨m, []⟩ =
        .ok answer ((⟨m, []⟩ : Store).after es) →
      (cacheAt base n).performs call m = (es, some answer)) ∧
    ((cellAt (slabOf base (call.index n))).call call.onCell ⟨m, []⟩ =
        .error .always ((⟨m, []⟩ : Store).after es) →
      (cacheAt base n).performs call m = (es, none)) := by
  constructor
  · intro answer hrun
    rw [Cache.performs, Cache.call_own hcount hn, hrun]
    rfl
  · intro hrun
    rw [Cache.performs, Cache.call_own hcount hn, hrun]
    rfl

/-- A call that the ring answers. -/
theorem CellIn.performs_ok {m : Mem} {call : CacheCall} {answer : Answer}
    (h : CellIn base n (call.index n) r m) (hn : 1 ≤ n) (hsized : call.Sized 2049 24576)
    (hcall : r.call call.onCell = some (answer, r')) :
    ∃ es, (cacheAt base n).performs call m = (es, some answer) ∧
      (∀ e ∈ es, Inside (slabOf base (call.index n)) e) ∧
      CellIn base n (call.index n) r' (replay m es) ∧ Ended es ∧
      ∀ d, Crash m es d → d = m ∨ CodesDiffer d (slabOf base (call.index n)) ∨ d = replay m es := by
  obtain ⟨es, hrun, hinside, hholds, hended, hcrash⟩ :=
    Cell.call_takes (s := ⟨m, []⟩) h.holds hsized hcall
  have hfixed : m.Agree (replay m es) base (base + cacheCellSize) :=
    replay_agree fun e he => ((hinside e he).object n).1
  have hheader := header_same hfixed
  refine ⟨es, (Cache.performs_cell h.count hn).1 answer hrun, hinside, ?_, hended, hcrash⟩
  refine ⟨hheader.1.trans h.magic, hheader.2.trans h.count, hholds, fun c hlookup => ?_⟩
  rcases h.holds.inv.call_lookup hsized hcall hlookup with rfl | hold
  · rfl
  · exact h.placed c hold

/-- A call that the ring answers reads its own cell and the header only. -/
theorem CellIn.performs_same {m m' : Mem} {call : CacheCall} {answer : Answer}
    (h : CellIn base n (call.index n) r m) (hn : 1 ≤ n) (hsized : call.Sized 2049 24576)
    (hcall : r.call call.onCell = some (answer, r'))
    (hsame : (cacheObjects base n).Same (call.index n) m m') :
    (cacheAt base n).performs call m' = (cacheAt base n).performs call m := by
  obtain ⟨es, hrun, -⟩ := Cell.call_takes (s := ⟨m, []⟩) h.holds hsized hcall
  have hslab : (⟨m, []⟩ : Store).mem.Agree (⟨m', []⟩ : Store).mem (slabOf base (call.index n))
      (slabOf base (call.index n) + 1048576) := hsame.1
  obtain ⟨es', hes, hrun'⟩ := Cell.call_same slabOf_pos h.holds hslab hsized hrun
  rw [← Machine.after_inj hes] at hrun'
  rw [(Cache.performs_cell h.count hn).1 answer hrun,
    (Cache.performs_cell (h.same hsame).count hn).1 answer hrun']

/-- A call that it does not answer. -/
theorem CellIn.performs_abort {m : Mem} {call : CacheCall} (h : CellIn base n (call.index n) r m)
    (hn : 1 ≤ n) (hsized : call.Sized 2049 24576) (hcall : r.call call.onCell = none) :
    ∃ es, (cacheAt base n).performs call m = (es, none) ∧
      (∀ e ∈ es, Inside (slabOf base (call.index n)) e) ∧
      ∀ d, Crash m es d → d = m ∨ CodesDiffer d (slabOf base (call.index n)) := by
  obtain ⟨es, hrun, hinside, hcrash⟩ := Cell.call_aborts (s := ⟨m, []⟩) h.holds hsized hcall
  exact ⟨es, (Cache.performs_cell h.count hn).2 hrun, hinside, hcrash⟩

theorem cacheObjects_lawful (hn : 1 ≤ n) : (cacheObjects base n).Lawful := by
  have hindex : ∀ call : CacheCall, call.index n < n := fun call => Nat.mod_lt _ hn
  constructor
  case rep_same =>
    intro i r m m' hrep hsame hi
    exact (hrep hi).same hsame
  case torn_same =>
    intro i m m' htorn hsame
    exact codesDiffer_same htorn hsame
  case inside =>
    intro call m r hsized hrep
    show ∀ e ∈ ((cacheAt base n).performs call m).1, _
    cases hcall : r.call call.onCell with
    | some out =>
        obtain ⟨es, hperforms, hinside, -⟩ :=
          (hrep (hindex call)).performs_ok hn hsized (hcall.trans (congrArg some (Prod.eta out).symm))
        rw [hperforms]
        exact fun e he => (hinside e he).object n
    | none =>
        obtain ⟨es, hperforms, hinside, -⟩ := (hrep (hindex call)).performs_abort hn hsized hcall
        rw [hperforms]
        exact fun e he => (hinside e he).object n
  case returns =>
    intro call m r answer r' hsized hrep hspec
    obtain ⟨es, hperforms, -, hcell, hended, hcrash⟩ :=
      (hrep (hindex call)).performs_ok hn hsized hspec
    have hrun : (cacheObjects base n).run call m = (es, some answer) := hperforms
    rw [hrun]
    refine ⟨rfl, fun d hd => ?_, fun _ => hcell, hended⟩
    rcases hcrash d hd with rfl | hdiffer | rfl
    · exact Or.inl hrep
    · exact Or.inr (Or.inl hdiffer)
    · exact Or.inr (Or.inr fun _ => hcell)
  case aborts =>
    intro call m r hsized hrep hspec
    obtain ⟨es, hperforms, -, hcrash⟩ := (hrep (hindex call)).performs_abort hn hsized hspec
    have hrun : (cacheObjects base n).run call m = (es, none) := hperforms
    rw [hrun]
    refine ⟨rfl, fun d hd => ?_⟩
    rcases hcrash d hd with rfl | hdiffer
    · exact Or.inl hrep
    · exact Or.inr (Or.inl hdiffer)
  case run_same =>
    intro call m m' r answer r' hsized hrep hspec hsame
    exact (hrep (hindex call)).performs_same hn hsized hspec hsame

/-! ## Runs of a cache -/

variable {rings : Nat → Ring} {calls : List CacheCall}

theorem CacheHolds.rep {m : Mem} (h : CacheHolds m base n rings) (i : Nat) :
    (cacheObjects base n).Rep i (rings i) m :=
  fun hi => ⟨h.magic, h.count, h.cell i hi, h.placed i hi⟩

/-- Calls on a cache are calls on its rings, and abort where these have no answer. -/
theorem Cache.calls_refine (h : CacheHolds s.mem base n rings) (hn : 1 ≤ n)
    (hsized : ∀ call ∈ calls, call.Sized 2049 24576) :
    (runAll (cacheObjects base n).specAll rings calls = none ∧
      ∃ s₁, (cacheAt base n).calls calls s = .error .always s₁) ∨
    ∃ answers rings' s', runAll (cacheObjects base n).specAll rings calls = some (answers, rings') ∧
      (cacheAt base n).calls calls s = .ok answers s' ∧ CacheHolds s'.mem base n rings' := by
  induction calls generalizing s rings with
  | nil => exact Or.inr ⟨[], rings, s, rfl, rfl, h⟩
  | cons call rest ih =>
      have hspec : (cacheObjects base n).specAll rings call =
          ((rings (call.index n)).call call.onCell).map fun out =>
            (out.1, Function.update rings (call.index n) out.2) := rfl
      rw [runAll, hspec, Cache.calls]
      rcases Cache.call_refines h hn (hsized call List.mem_cons_self) with ⟨s₁, hnone, hrun⟩ |
          ⟨answer, r', s₁, hsome, hrun, h₁, -⟩
      · exact Or.inl ⟨by rw [hnone]; rfl, s₁, bind_error hrun _⟩
      rw [hsome, Option.map_some, Option.bind_some, bind_ok hrun]
      rcases ih h₁ fun call' hcall' => hsized call' (List.mem_cons_of_mem _ hcall') with
        ⟨hnone, s₂, hrun'⟩ | ⟨answers, rings', s₂, hsome', hrun', h₂⟩
      · exact Or.inl ⟨by rw [hnone]; rfl, s₂, bind_error hrun' _⟩
      · exact Or.inr ⟨answer :: answers, rings', s₂, by rw [hsome']; rfl, bind_ok hrun' _, h₂⟩

variable {σ : Locked Nat Site CacheCall Answer}

/-- The calls that got their mutex are of the sizes given. -/
theorem interleaved_sized {m : Mem} (hsteps : Interleaved base n m σ) :
    ∀ call ∈ σ.begun.map Prod.fst, call.Sized 2049 24576 := by
  induction hsteps with
  | refl => exact fun call hcall => absurd hcall List.not_mem_nil
  | tail _ hstep ih =>
      cases hstep with
      | @lock call hcall hfree =>
          intro call' hmem
          rw [Locked.hold, Locked.begin, List.map_append, List.mem_append] at hmem
          rcases hmem with hmem | hmem
          · exact ih call' hmem
          · cases hperforms : ((cacheObjects base n).run call _).2 with
            | none =>
                rw [hperforms] at hmem
                exact absurd hmem List.not_mem_nil
            | some answer =>
                rw [hperforms] at hmem
                rw [List.mem_singleton.1 hmem]
                exact hcall
      | act _ => exact ih
      | unlock _ => exact ih

/-- Whatever any number of threads do with a cache, the calls that got their mutex return what they
return when they are made one after the other in that order, and leave the cells that no call is
under way on as these do. -/
theorem CacheHolds.linearizable (h : CacheHolds s.mem base n rings) (hn : 1 ≤ n)
    (hsteps : Interleaved base n s.mem σ) : ∃ s' rings',
      (cacheAt base n).calls (σ.begun.map Prod.fst) s = .ok (σ.begun.map Prod.snd) s' ∧
      runAll (cacheObjects base n).specAll rings (σ.begun.map Prod.fst) =
        some (σ.begun.map Prod.snd, rings') ∧
      CacheHolds s'.mem base n rings' ∧
      ∀ i, σ.held i = none → (cacheObjects base n).Rep i (rings' i) σ.mem := by
  obtain ⟨rings', hspec, hidle⟩ := Objects.linearizable (cacheObjects_lawful hn) h.rep hsteps
  rcases Cache.calls_refine h hn (interleaved_sized hsteps) with ⟨hnone, -⟩ |
      ⟨answers, rings₁, s', hsome, hcalls, hholds⟩
  · rw [hspec] at hnone
    cases hnone
  · rw [hspec, Option.some.injEq, Prod.mk.injEq] at hsome
    obtain ⟨rfl, rfl⟩ := hsome
    exact ⟨s', rings', hcalls, hspec, hholds, hidle⟩

end

end Theo
