import Theo.Cache.Crash
import Theo.Lib.Clients
import Theo.Pool.Dedup

set_option autoImplicit false

/-! # Streamers as threads

The streamers are clients of the cells: while one is in a call of the cache, with its mutex, the others
go on and store in other cells. What they do like this they could have done with each call of the cache in
a single step, as the streamers of a pool (`streamers_refine`). So as long as the distinct chunks fit, no
call aborts, no thread waits for ever, and a chunk that was passed is found on the memory as it is
(`streamers_dedup`). -/

namespace Theo

open ByteMachine BucketIndex

/-- The call of the cache that a streamer is at. -/
def Worker.asks : Worker → Option CacheCall
  | ⟨_, .looking chunkRef _⟩ => some (.hasChunk chunkRef.checksum)
  | ⟨_, .adding chunkRef _⟩ => some (.addChunk chunkRef.checksum chunkRef.buffer)
  | _ => none

/-- How `chunk_streamer_process_buffer` goes on with what the call returned. -/
def Worker.resume : Worker → Answer → Worker
  | ⟨streamer, .looking _ ptr⟩, .has true => ⟨streamer.countHit, .cutting ptr⟩
  | ⟨streamer, .looking chunkRef ptr⟩, .has false => ⟨streamer, .adding chunkRef ptr⟩
  | ⟨streamer, .adding _ ptr⟩, .added _ => ⟨streamer.countAdded, .cutting ptr⟩
  | worker, _ => worker

def streamerProgram (checksumGen : List UInt8 → Checksum) : Program Worker CacheCall Answer Shown where
  Alone worker shown worker' := worker.asks = none ∧ ∃ s s', worker.Step checksumGen s shown worker' s'
  asks := Worker.asks
  resume := Worker.resume

/-- Streamers as threads. -/
abbrev Streamers (k : Nat) := Crew (Fin k) Nat Site Worker CacheCall Answer Shown

/-- What any number of streamers make of a memory. -/
abbrev Streaming {k : Nat} (checksumGen : List UInt8 → Checksum) (base n : Nat)
    (workers : Fin k → Worker) (m : Mem) (crew : Streamers k) : Prop :=
  Relation.ReflTransGen ((streamerProgram checksumGen).Step (cacheObjects base n))
    (Crew.start workers m) crew

/-- The same streamers on the rings of the cells. -/
abbrev RingStreamers (k : Nat) := Clients (Fin k) Nat Worker CacheCall Answer Ring Shown

/-- The chunks that were emitted. -/
def emittedIn (shown : List Shown) : List (List UInt8) := shown.flatMap Shown.chunks

/-- The insertions that return true. -/
def insertedIn (begun : List (CacheCall × Answer)) : Nat :=
  begun.countP fun x => match x.2 with
    | .added true => true
    | _ => false

/-- The number of streamers that have emitted the chunk and not passed it yet. -/
def passingIn {k : Nat} (crew : Streamers k) (x : List UInt8) : Nat :=
  ∑ i, (crew.clients i).phase.passes x

/-- A pool that has got as far as streamers on the rings. -/
structure Pool.Follows {k : Nat} (base n : Nat) (pool : Pool k) (y : RingStreamers k) : Prop where
  workers : pool.workers = y.clients
  holds : CacheHolds pool.store.mem base n y.state
  emitted : pool.emitted = emittedIn y.shown
  inserted : pool.inserted = insertedIn y.begun

section

variable {k base n : Nat} {checksumGen : List UInt8 → Checksum} {cacheManager : CacheManager}
  {emitted : List (List UInt8)} {worker worker' : Worker} {shown : Shown} {s s' : Store}
  {pool start : Pool k} {crew : Streamers k} {y y' : RingStreamers k} {rings : Nat → Ring}

/-! ## What a streamer does by itself -/

theorem chunkerChunkBuffer_blind (chunker : Chunker) (ptr : List UInt8) :
    Blind (chunkerChunkBuffer checksumGen chunker ptr) := by
  rw [chunkerChunkBuffer]
  refine (Blind.check _ _).bind fun _ => Blind.ite (Blind.pure _) ?_
  exact Blind.ite (Blind.pure _) (Blind.ite (Blind.pure _) (Blind.pure _))

theorem chunkStreamerFlushRetained_blind (streamer : ChunkStreamer) (bufferLength : Nat) :
    Blind (chunkStreamerFlushRetained streamer bufferLength) := by
  rw [chunkStreamerFlushRetained, chunkerFlushRetained]
  refine Blind.bind ((Blind.check _ _).bind fun _ => ?_) fun _ => Blind.pure _
  exact Blind.ite (Blind.pure _) (Blind.pure _)

/-- A step in which a streamer does not call the cache it can take on every memory. -/
theorem Worker.Step.elsewhere (hstep : worker.Step checksumGen s shown worker' s')
    (hasks : worker.asks = none) (t : Store) :
    ∃ t', worker.Step checksumGen t shown worker' t' ∧ t'.mem = t.mem ∧ shown.inserts = 0 := by
  cases hstep with
  | process streamer buffer _ => exact ⟨t, .process streamer buffer t, rfl, rfl⟩
  | flush hflush => exact ⟨t, .flush ((chunkStreamerFlushRetained_blind _ _).elsewhere hflush t), rfl, rfl⟩
  | notFound hcut => exact ⟨t, .notFound ((chunkerChunkBuffer_blind _ _).elsewhere hcut t), rfl, rfl⟩
  | found hcut => exact ⟨_, .found ((chunkerChunkBuffer_blind _ _).elsewhere hcut t), rfl, rfl⟩
  | hit _ => cases hasks
  | miss _ => cases hasks
  | add _ => cases hasks

/-- A step of a sound streamer, whatever the memory. -/
theorem Worker.Sound.moves (h : worker.Sound checksumGen cacheManager emitted)
    (hstep : worker.Step checksumGen s shown worker' s') :
    worker'.Sound checksumGen cacheManager (emitted ++ shown.chunks) := by
  cases hstep with
  | process _ _ _ =>
      rw [append_chunks rfl]
      exact ⟨h.cacheManager, h.chunker, trivial⟩
  | flush hflush =>
      obtain ⟨-, hready, hmanager⟩ := chunkStreamerFlushRetained_ready h.chunker hflush
      rw [append_chunks rfl]
      exact ⟨hmanager.trans h.cacheManager, hready, trivial⟩
  | notFound hcut =>
      rw [append_chunks rfl]
      exact ⟨h.cacheManager, (chunkerChunkBuffer_ok h.chunker hcut).2.1, trivial⟩
  | found hcut =>
      obtain ⟨-, hready, hpassed⟩ := chunkerChunkBuffer_found h.chunker hcut
      exact ⟨h.cacheManager, hready, hpassed.ref, List.mem_append_right _ hpassed.emitted, hpassed.lo,
        hpassed.hi⟩
  | hit _ =>
      rw [append_chunks rfl]
      exact ⟨h.cacheManager, h.chunker, trivial⟩
  | miss _ =>
      rw [append_chunks rfl]
      exact ⟨h.cacheManager, h.chunker, h.passed⟩
  | add _ =>
      rw [append_chunks rfl]
      exact ⟨h.cacheManager, h.chunker, trivial⟩

/-- The calls of a streamer are of the sizes that the cells take. -/
theorem Worker.Sound.sized (h : worker.Sound checksumGen cacheManager emitted) {call : CacheCall}
    (hasks : worker.asks = some call) : call.Sized 2049 24576 := by
  obtain ⟨streamer, phase⟩ := worker
  cases phase with
  | idle => cases hasks
  | cutting ptr => cases hasks
  | looking chunkRef ptr =>
      obtain rfl := Option.some.inj hasks
      trivial
  | adding chunkRef ptr =>
      obtain rfl := Option.some.inj hasks
      have hpassed : Passed checksumGen emitted chunkRef := h.passed
      exact ⟨hpassed.lo, hpassed.hi⟩

/-- A call of the cache in one step of a pool. -/
theorem Worker.Sound.calls (h : worker.Sound checksumGen cacheManager emitted)
    (hcache : cacheManager.cache = cacheAt base n) (hn : 1 ≤ n) (hholds : CacheHolds s.mem base n rings)
    {call : CacheCall} {answer : Answer} {rings' : Nat → Ring} (hasks : worker.asks = some call)
    (hspec : (cacheObjects base n).specAll rings call = some (answer, rings')) :
    ∃ shown s', worker.Step checksumGen s shown (worker.resume answer) s' ∧
      CacheHolds s'.mem base n rings' ∧ shown.chunks = [] ∧
      shown.inserts = insertedIn [(call, answer)] := by
  obtain ⟨streamer, phase⟩ := worker
  have hmanager : streamer.cacheManager.cache = cacheAt base n := h.cacheManager ▸ hcache
  obtain ⟨⟨answer', r'⟩, hcall, heq⟩ := Option.map_eq_some_iff.1 hspec
  rw [Prod.mk.injEq] at heq
  obtain ⟨rfl, rfl⟩ := heq
  cases phase with
  | idle => cases hasks
  | cutting ptr => cases hasks
  | looking chunkRef ptr =>
      obtain rfl := Option.some.inj hasks
      obtain ⟨rfl, rfl⟩ := Prod.mk.inj (Option.some.inj hcall)
      have hrun := cacheManagerHasChunk_run hmanager hholds hn chunkRef.checksum
      rw [Function.update_eq_self]
      have hlookup : ((cacheObjects base n).index (.hasChunk chunkRef.checksum)) =
          chunkRef.checksum.part % n := rfl
      rw [hlookup]
      cases hhas : ((rings (chunkRef.checksum.part % n)).lookup chunkRef.checksum).isSome with
      | true =>
          rw [hhas] at hrun
          exact ⟨_, _, .hit hrun, hholds, rfl, rfl⟩
      | false =>
          rw [hhas] at hrun
          exact ⟨_, _, .miss hrun, hholds, rfl, rfl⟩
  | adding chunkRef ptr =>
      obtain rfl := Option.some.inj hasks
      have hpassed : Passed checksumGen emitted chunkRef := h.passed
      obtain ⟨⟨added, r'⟩, hinsert, heq⟩ := Option.map_eq_some_iff.1 hcall
      obtain ⟨rfl, rfl⟩ := Prod.mk.inj heq
      obtain ⟨s', hrun, hholds'⟩ :=
        cacheManagerAddChunk_run hmanager hholds hn hpassed.lo hpassed.hi hinsert
      refine ⟨_, s', .add hrun, hholds', rfl, ?_⟩
      cases added with
      | true => rfl
      | false => rfl

/-! ## A pool that does the same -/

theorem emittedIn_append (history : List Shown) (shown : Shown) :
    emittedIn (history ++ [shown]) = emittedIn history ++ shown.chunks := by
  rw [emittedIn, List.flatMap_append, List.flatMap_singleton, emittedIn]

theorem insertedIn_append (begun : List (CacheCall × Answer)) (x : CacheCall × Answer) :
    insertedIn (begun ++ [x]) = insertedIn begun + insertedIn [x] := List.countP_append

/-- The streamers of a pool on one cache manager. -/
def Pool.OnCache {k : Nat} (checksumGen : List UInt8 → Checksum) (cacheManager : CacheManager)
    (pool : Pool k) : Prop :=
  ∀ i, (pool.workers i).Sound checksumGen cacheManager pool.emitted

theorem Pool.New.onCache (h : start.New cacheManager) : start.OnCache checksumGen cacheManager := by
  intro i
  obtain ⟨streamer, hrun, hidle, hmanager, -⟩ := chunkStreamerInit_run cacheManager start.store
  rw [h.init i, EStateM.Result.ok.injEq] at hrun
  refine ⟨?_, ?_, ?_⟩
  · rw [hrun.1, hmanager]
  · rw [hrun.1]
    exact hidle.ready
  · rw [h.idle i]
    trivial

theorem Pool.OnCache.step {pool' : Pool k} {i : Fin k} (h : pool.OnCache checksumGen cacheManager)
    (hstep : pool.Step checksumGen i pool') : pool'.OnCache checksumGen cacheManager := by
  obtain ⟨shown, worker, s, hmove, rfl⟩ := hstep
  have hemitted : Pool.emitted ⟨Function.update pool.workers i worker, s, pool.history ++ [shown]⟩ =
      pool.emitted ++ shown.chunks := emitted_history _ _ _ _
  intro j
  rw [hemitted]
  show (Function.update pool.workers i worker j).Sound checksumGen cacheManager _
  by_cases hj : j = i
  · subst hj
    rw [Function.update_self]
    exact (h j).moves hmove
  · rw [Function.update_of_ne hj]
    exact (h j).mono (List.subset_append_left _ _)

/-- The step of the pool that goes with one on the rings. -/
theorem Pool.Follows.step (h : pool.Follows base n y) (honCache : pool.OnCache checksumGen cacheManager)
    (hcache : cacheManager.cache = cacheAt base n) (hn : 1 ≤ n)
    (hstep : (streamerProgram checksumGen).Atomic (cacheObjects base n) y y') :
    ∃ i pool', pool.Step checksumGen i pool' ∧ pool'.Follows base n y' := by
  cases hstep with
  | @alone i shown client halone =>
      obtain ⟨hasks, s, s', hmove⟩ := halone
      rw [← h.workers] at hasks hmove
      obtain ⟨t, hmove, hmem, hinserts⟩ := hmove.elsewhere hasks pool.store
      refine ⟨i, _, ⟨shown, client, t, hmove, rfl⟩, ?_, ?_, ?_, ?_⟩
      · rw [← h.workers]
      · rw [hmem]
        exact h.holds
      · rw [emitted_history, emittedIn_append, ← h.emitted]
        rfl
      · rw [inserted_append, hinserts, Nat.add_zero, ← h.inserted]
        rfl
  | @call i call answer state hasks hspec =>
      rw [← h.workers] at hasks
      obtain ⟨shown, s', hmove, hholds, hchunks, hinserts⟩ :=
        (honCache i).calls hcache hn h.holds hasks hspec
      refine ⟨i, _, ⟨shown, _, s', hmove, rfl⟩, ?_, hholds, ?_, ?_⟩
      · rw [← h.workers]
        rfl
      · rw [emitted_history, hchunks, List.append_nil, ← h.emitted]
        rfl
      · rw [inserted_append, insertedIn_append, hinserts, ← h.inserted]
        rfl

/-- A run of the pool for every run on the rings. -/
theorem Pool.follows (honCache : start.OnCache checksumGen cacheManager) (hhistory : start.history = [])
    (hcache : cacheManager.cache = cacheAt base n) (hn : 1 ≤ n)
    (hholds : CacheHolds start.store.mem base n rings)
    (hrun : Relation.ReflTransGen ((streamerProgram checksumGen).Atomic (cacheObjects base n))
      (Clients.start start.workers rings) y) :
    ∃ steps pool, start.Run checksumGen steps pool ∧ pool.Follows base n y ∧
      pool.OnCache checksumGen cacheManager := by
  induction hrun with
  | refl =>
      refine ⟨[], start, .start, ⟨rfl, hholds, ?_, ?_⟩, honCache⟩
      · rw [Pool.emitted, hhistory]
        rfl
      · rw [Pool.inserted, hhistory]
        rfl
  | tail _ hstep ih =>
      obtain ⟨steps, pool, hrun, hfollows, honCache'⟩ := ih
      obtain ⟨i, pool', hstep', hfollows'⟩ := hfollows.step honCache' hcache hn hstep
      exact ⟨_, pool', hrun.step hstep', hfollows', honCache'.step hstep'⟩

/-- The pool and the rings that have got as far as the streamers. -/
theorem Pool.refines (honCache : start.OnCache checksumGen cacheManager) (hhistory : start.history = [])
    (hcache : cacheManager.cache = cacheAt base n) (hn : 1 ≤ n)
    (hholds : CacheHolds start.store.mem base n rings)
    (hsteps : Streaming checksumGen base n start.workers start.store.mem crew) :
    ∃ steps pool y, start.Run checksumGen steps pool ∧ pool.Follows base n y ∧
      crew.Refines (streamerProgram checksumGen) (cacheObjects base n) start.store.mem rings y := by
  have hallowed : ∀ y, Relation.ReflTransGen ((streamerProgram checksumGen).Atomic (cacheObjects base n))
      (Clients.start start.workers rings) y → ∀ i call,
        (streamerProgram checksumGen).asks (y.clients i) = some call →
          (cacheObjects base n).Allowed call := by
    intro y hatomic i call hasks
    obtain ⟨-, pool, -, hfollows, honCache'⟩ := Pool.follows honCache hhistory hcache hn hholds hatomic
    rw [← hfollows.workers] at hasks
    exact (honCache' i).sized hasks
  obtain ⟨y, hatomic, hrefines⟩ := Crew.refines (cacheObjects_lawful hn) hholds.rep hallowed hsteps
  obtain ⟨steps, pool, hrun, hfollows, -⟩ := Pool.follows honCache hhistory hcache hn hholds hatomic
  exact ⟨steps, pool, y, hrun, hfollows, hrefines⟩

theorem Worker.resume_passes (worker : Worker) (answer : Answer) (x : List UInt8) :
    (worker.resume answer).phase.passes x ≤ worker.phase.passes x := by
  unfold Worker.resume
  split
  · exact Nat.zero_le _
  · exact Nat.le_refl _
  · exact Nat.zero_le _
  · exact Nat.le_refl _

/-- A call under way counts as not passed yet, also where it is done on the rings. -/
theorem Pool.Follows.passing_le {m : Mem} (h : pool.Follows base n y)
    (hrefines : crew.Refines (streamerProgram checksumGen) (cacheObjects base n) m rings y)
    (x : List UInt8) : pool.passing x ≤ passingIn crew x := by
  refine Finset.sum_le_sum fun i _ => ?_
  rw [h.workers, hrefines.clients i]
  rcases crew.calling i with - | ⟨call, - | answer⟩
  · exact Nat.le_refl _
  · exact Nat.le_refl _
  · exact Worker.resume_passes _ answer x

/-- As long as the chunks fit, the cache answers what a streamer asks. -/
theorem Worker.Sound.answered {stored : Finset (List UInt8)}
    (h : worker.Sound checksumGen cacheManager emitted) (hcache : cacheManager.cache = cacheAt base n)
    (hn : 1 ≤ n) (hstored : HoldsJust checksumGen base n stored s.mem) (hsub : stored ⊆ emitted.toFinset)
    (hinj : Set.InjOn checksumGen (emitted.toFinset : Set (List UInt8)))
    (hfit : Fit checksumGen n emitted.toFinset) (hholds : CacheHolds s.mem base n rings)
    {call : CacheCall} (hasks : worker.asks = some call) :
    (cacheObjects base n).spec (rings (call.index n)) call ≠ none := by
  obtain ⟨streamer, phase⟩ := worker
  intro hnone
  cases phase with
  | idle => cases hasks
  | cutting ptr => cases hasks
  | looking chunkRef ptr =>
      obtain rfl := Option.some.inj hasks
      cases hnone
  | adding chunkRef ptr =>
      obtain rfl := Option.some.inj hasks
      have hpassed : Passed checksumGen emitted chunkRef := h.passed
      obtain ⟨s', hadd, -⟩ := hstored.addChunk hcache hn hpassed.lo hpassed.hi (hpassed.apart hsub hinj)
        (hfit.mono (hpassed.insert_subset hsub))
      rw [← hpassed.checksum] at hadd
      obtain ⟨r', hinsert, -⟩ := cacheManagerAddChunk_holds hcache hholds hn hpassed.lo hpassed.hi hadd
      have hring : ((rings (chunkRef.checksum.part % n)).insert chunkRef.checksum
          chunkRef.buffer).map _ = none := hnone
      rw [hinsert] at hring
      cases hring

/-- New streamers on a new cache. As long as the chunks that they have emitted fit: no call aborts, and
who is at a call can take a step, or who holds the mutex of its cell can; a chunk that one of those that
emitted it has passed is fetched wherever no call is under way on its cell, whatever the other cells are
at; and behind the last pass each distinct chunk has been inserted once. -/
theorem streamers_dedup {t : Store} (hn : 1 ≤ n) (hsize : (n + 1) * cacheCellSize < 2 ^ 64)
    (hz : t.mem.Zero base (base + (n + 1) * cacheCellSize))
    (hinit : cacheInit base ((n + 1) * cacheCellSize) t = .ok cacheManager.cache start.store)
    (hnew : start.New cacheManager)
    (hsteps : Streaming checksumGen base n start.workers start.store.mem crew)
    (hinj : Set.InjOn checksumGen ((emittedIn crew.shown).toFinset : Set (List UInt8)))
    (hfit : Fit checksumGen n (emittedIn crew.shown).toFinset) :
    (∀ i call, crew.calling i ≠ some (call, none)) ∧
    (∀ i call, (crew.clients i).asks = some call → ∃ crew' : Streamers k,
      (streamerProgram checksumGen).Step (cacheObjects base n) crew crew' ∧
      crew'.locked.held (call.index n) ≠ crew.locked.held (call.index n)) ∧
    (∀ x, passingIn crew x < (emittedIn crew.shown).count x →
      crew.locked.held ((checksumGen x).part % n) = none → ∀ chunk, ∃ chunk',
      cacheManagerGetChunk cacheManager (checksumGen x) chunk ⟨crew.locked.mem, []⟩ =
        .ok (true, chunk') ⟨crew.locked.mem, []⟩ ∧
      chunk'.checksum = checksumGen x ∧ chunk'.buffer.take chunk'.bufferSize = x) ∧
    ((∀ x, passingIn crew x = 0) →
      insertedIn crew.locked.begun = (emittedIn crew.shown).toFinset.card) := by
  obtain ⟨s₁, hinit', hholds, -⟩ := cacheInit_zero hn (slots_eq n) hsize hz
  rw [hinit, EStateM.Result.ok.injEq] at hinit'
  obtain ⟨hcache, rfl⟩ := hinit'
  obtain ⟨steps, pool, y, hrun, hfollows, hrefines⟩ :=
    Pool.refines hnew.onCache hnew.history hcache hn hholds hsteps
  have hemitted : pool.emitted = emittedIn crew.shown := hfollows.emitted.trans (hrefines.shown ▸ rfl)
  rw [← hemitted] at hinj hfit ⊢
  have hsound : start.Sound checksumGen cacheManager base n := hnew.sound hholds
  obtain ⟨stored, hkeeps⟩ := (hnew.keeps hholds).run hsound hcache hn hrun hinj hfit
  have hsound' := hsound.run hcache hn hrun
  have howned : crew.Owned (streamerProgram checksumGen) (cacheObjects base n) := Crew.Owned.steps hsteps
  have hreturns : ∀ i call, crew.calling i ≠ some (call, none) := by
    intro i call hcalling
    have hclient : pool.workers i = crew.clients i := by
      rw [hfollows.workers, hrefines.clients i, hcalling, Program.ahead_abort]
    have hasks : (pool.workers i).asks = some call := hclient ▸ howned.asks hcalling
    exact (hsound'.workers i).answered hcache hn hkeeps.cache hkeeps.emitted hinj hfit hfollows.holds hasks
      (hrefines.aborts i call hcalling)
  refine ⟨hreturns, fun i call hasks => howned.goes_on hreturns hasks, fun x hx hfree chunk => ?_,
    fun hidle => ?_⟩
  · have hmem := hkeeps.passed (Nat.lt_of_le_of_lt (hfollows.passing_le hrefines x) hx)
    -- the pool finds it, and the ring of its cell is in the memory of the streamers
    obtain ⟨chunk', hget, hchecksum, htake⟩ := hkeeps.cache.getChunk hcache hn hmem chunk
    refine ⟨chunk', ?_, hchecksum, htake⟩
    have hcell : CellIn base n ((checksumGen x).part % n) (y.state ((checksumGen x).part % n))
        crew.locked.mem := hrefines.objects.rep (cacheObjects_lawful hn) hfree (Nat.mod_lt _ hn)
    rw [cacheManagerGetChunk, hcache] at hget ⊢
    rw [cacheGetChunk_run hfollows.holds hn, EStateM.Result.ok.injEq] at hget
    rw [CellIn.getChunk (s := ⟨crew.locked.mem, []⟩) hcell hn, hget.1]
  · have hpassing : ∀ x, pool.passing x = 0 := fun x =>
      Nat.le_zero.1 (hidle x ▸ hfollows.passing_le hrefines x)
    rw [← hrefines.begun, ← hfollows.inserted]
    exact hkeeps.inserted_once hpassing

end

/-! ## Two streamers at one mutex -/

/-- Two streamers have cut off the same chunk. One is in the look-up of it, with the mutex; the other is
at that look-up. -/
theorem twins_wait : ∃ (start : Pool 2) (crew : Streamers 2),
    cacheInit 4096 ((1 + 1) * cacheCellSize) ⟨zeroed.mem, []⟩ = .ok sampleManager.cache start.store ∧
    start.New sampleManager ∧ Streaming twinGen 4096 1 start.workers start.store.mem crew ∧
    emittedIn crew.shown = [twinRef.buffer, twinRef.buffer] ∧ crew.calling 0 ≠ none ∧
    crew.calling 1 = none ∧ (crew.clients 1).asks = some (.hasChunk twinRef.checksum) := by
  obtain ⟨s, streamer, hinit, -, hnew, hidle, -⟩ := twins_start
  obtain ⟨worker, s', hprocess, hcut, -⟩ := cuts_twinChunk hidle s
  have hstart : Streaming twinGen 4096 1 (pair ⟨streamer, .idle⟩ ⟨streamer, .idle⟩) s.mem
      (Crew.start (pair ⟨streamer, .idle⟩ ⟨streamer, .idle⟩) s.mem) := .refl
  have hleft := (hstart.tail (.alone (i := 0) rfl ⟨rfl, s, s, hprocess⟩)).tail
    (.alone (i := 0) rfl ⟨rfl, s, s', hcut⟩)
  have hboth := (hleft.tail (.alone (i := 1) rfl ⟨rfl, s, s, hprocess⟩)).tail
    (.alone (i := 1) rfl ⟨rfl, s, s', hcut⟩)
  have hasks : (streamerProgram twinGen).asks ⟨worker, .looking twinRef twinRest⟩ =
      some (.hasChunk twinRef.checksum) := rfl
  have hcall := hboth.tail (.call (i := 0) rfl hasks rfl)
  exact ⟨⟨pair ⟨streamer, .idle⟩ ⟨streamer, .idle⟩, s, []⟩, _, hinit, hnew, hcall, rfl,
    Option.some_ne_none _, rfl, rfl⟩

/-- The one that waits is served. -/
theorem streamers_dedup_wait : ∃ (start : Pool 2) (crew crew' : Streamers 2),
    start.New sampleManager ∧ Streaming twinGen 4096 1 start.workers start.store.mem crew ∧
    crew.calling 0 ≠ none ∧ (crew.clients 1).asks = some (.hasChunk twinRef.checksum) ∧
    (streamerProgram twinGen).Step (cacheObjects 4096 1) crew crew' ∧
    crew'.locked.held (twinRef.checksum.part % 1) ≠ crew.locked.held (twinRef.checksum.part % 1) := by
  obtain ⟨start, crew, hinit, hnew, hsteps, hemitted, hcalling, -, hasks⟩ := twins_wait
  have hsize : (1 + 1) * cacheCellSize < 2 ^ 64 := slots_lt (by decide)
  have hone : ∀ x ∈ emittedIn crew.shown, x = twinRef.buffer := by
    intro x hx
    rw [hemitted] at hx
    simpa using hx
  obtain ⟨hfit, hinj⟩ := twin_fits twinGen hone
  obtain ⟨-, hgo, -⟩ := streamers_dedup (Nat.le_refl 1) hsize
    (zeroed_zero 4096 (4096 + (1 + 1) * cacheCellSize)) hinit hnew hsteps hinj hfit
  obtain ⟨crew', hstep, hheld⟩ := hgo 1 _ hasks
  exact ⟨start, crew, crew', hnew, hsteps, hcalling, hasks, hstep, hheld⟩

end Theo
