import Theo.Cache.Threads
import Theo.Cell.Queue
import Theo.Cell.Recovery

set_option autoImplicit false

/-! # A cache that outlives its processes

The buffer of a cache goes through the hands of many processes. Each opens it with `cache_init`, has
threads use it, and dies: while opening it, or with calls under way in any number of cells
(`Lifetime`). When the process dies in calls, each cell is afterwards as behind its last call that
returned, as behind the one under way, or empty (`threads_crash_atomic`); and whatever a look-up finds
was given to some insertion under its checksum, no matter how many processes ago
(`lifetime_reads`). -/

namespace Theo

open ByteMachine BucketIndex

/-- The chunks that calls were to add. -/
def givenTo (begun : List (CacheCall × Answer)) : List (Checksum × List UInt8) :=
  begun.filterMap fun
    | (.addChunk c buffer, _) => some (c, buffer)
    | _ => none

/-- What may be in the buffer of a cache of `n` cells at `base`, which was made of zeroes, once the
chunks `given` were to be added by processes that have died. A process may die in `cache_init` as long as
no cell has to be recovered from an insertion that was interrupted. -/
inductive Lifetime (base n : Nat) : List (Checksum × List UInt8) → Mem → Prop
  | zeroed {m : Mem} (hz : m.Zero base (base + (n + 1) * cacheCellSize)) : Lifetime base n [] m
  | diesOpening {given : List (Checksum × List UInt8)} {m d : Mem} (h : Lifetime base n given m)
      (hsafe : ∀ i < n, cellHeaderSane m (cellAt (slabOf base i)).cellHeader = true ∨
        m.load32 (cellAt (slabOf base i)).cellHeader = 0)
      (hd : DiesWithin m ⟨m, []⟩ (final (cacheInit base ((n + 1) * cacheCellSize) ⟨m, []⟩)) d) :
      Lifetime base n given d
  | dies {given : List (Checksum × List UInt8)} {m d : Mem} {s : Store}
      {σ : Locked Nat Site CacheCall Answer} (h : Lifetime base n given m)
      (hinit : cacheInit base ((n + 1) * cacheCellSize) ⟨m, []⟩ = .ok (cacheAt base n) s)
      (hsteps : Interleaved base n s.mem σ) (hd : DurableAmong s.mem σ.log d) :
      Lifetime base n (given ++ givenTo σ.begun) d

section

variable {base n i j slab : Nat} {m d : Mem} {s s' t : Store} {r : Ring} {es : List (Event Site)}
  {given : List (Checksum × List UInt8)} {σ : Locked Nat Site CacheCall Answer}

/-! ## What `cache_init` stores -/

theorem cellInit_events (slab : Nat) (s : Store) : ∃ es,
    cellInit slab cacheCellSize s = .ok (cellAt slab) (s.after es) ∧
      (∀ e ∈ es, SlabEvent slab e) ∧ Ended es := by
  obtain ⟨es, hrun, hes⟩ := cellInit_slabEvent slab s
  refine ⟨es, hrun, hes, ?_⟩
  cases hsane : cellHeaderSane s.mem (slab + 1019872) with
  | true =>
      rw [cellInit_sane hsane, EStateM.Result.ok.injEq, ← Machine.after_nil s] at hrun
      rw [Machine.after_append, List.nil_append] at hrun
      exact Or.inl (Machine.after_inj hrun.2).symm
  | false =>
      obtain ⟨s₁, hinit, hemits, -⟩ := cellInit_insane slab chunkerLimits hsane
      obtain ⟨es₁, rfl, -⟩ := hemits.eq_after
      rw [hinit, EStateM.Result.ok.injEq, initialised_eq, Machine.after_append] at hrun
      rw [← Machine.after_inj hrun.2]
      exact Or.inr (by rw [List.getLast?_append]; rfl)

/-- The loop over the cells, each event tagged with its cell. -/
theorem cacheInitCells_events (base i n : Nat) (s : Store) : ∃ log : List (Nat × Event Site),
    cacheInitCells (slabOf base i) n s =
      .ok ((List.range' i n).map fun j => cellAt (slabOf base j)) (s.after (log.map Prod.snd)) ∧
    Ended (log.map Prod.snd) ∧
    (∀ x ∈ log, (i ≤ x.1 ∧ x.1 < i + n) ∧ SlabEvent (slabOf base x.1) x.2) ∧
    ∀ j, i ≤ j → j < i + n → ∀ t : Store, SameSlab base j s t →
      cellInit (slabOf base j) cacheCellSize t =
        .ok (cellAt (slabOf base j)) (t.after (eventsOf j log)) := by
  induction n generalizing i s with
  | zero =>
      refine ⟨[], ?_, Or.inl rfl, fun x hx => absurd hx List.not_mem_nil, fun j hij hj => by omega⟩
      rw [List.map_nil, Machine.after_nil]
      rfl
  | succ n ih =>
      obtain ⟨es, hrun, hes, hended⟩ := cellInit_events (slabOf base i) s
      obtain ⟨log, hcells, hended', hlog, halone⟩ := ih (i + 1) (s.after es)
      have hfirst := tagged_snd i es
      refine ⟨es.map (fun e => (i, e)) ++ log, ?_, ?_, ?_, ?_⟩
      · rw [cacheInitCells, bind_ok hrun, slabOf_succ, bind_ok hcells, List.map_append, hfirst,
          ← Machine.after_append]
        rfl
      · rw [List.map_append, hfirst]
        exact hended.append hended'
      · intro x hx
        rcases List.mem_append.1 hx with hx | hx
        · obtain ⟨e, he, rfl⟩ := List.mem_map.1 hx
          exact ⟨⟨Nat.le_refl i, by omega⟩, hes e he⟩
        · obtain ⟨⟨hlo, hhi⟩, hslab⟩ := hlog x hx
          exact ⟨⟨by omega, by omega⟩, hslab⟩
      · intro j hij hj t hsame
        rw [eventsOf_append]
        rcases Nat.eq_or_lt_of_le hij with rfl | hlt
        · -- the rest of the loop goes to other cells
          have hrest : eventsOf i log = [] := eventsOf_eq_nil fun x hx => by
            have := (hlog x hx).1.1
            omega
          obtain ⟨es', hrun', hrunt, -⟩ := cellInit_same hsame
          rw [hrun, EStateM.Result.ok.injEq] at hrun'
          rw [eventsOf_tagged, hrest, List.append_nil, Machine.after_inj hrun'.2]
          exact hrunt
        · have hother : eventsOf j (es.map fun e => (i, e)) = [] := eventsOf_eq_nil fun x hx => by
            obtain ⟨e, -, rfl⟩ := List.mem_map.1 hx
            exact Nat.ne_of_lt hlt
          have hframe : SameSlab base j s (s.after es) := replay_agree fun e he =>
            (hes e he).inside _ _ (Or.inr (slabOf_add_le base hlt))
          rw [hother, List.nil_append]
          exact halone j hlt (by omega) t (hframe.symm.trans hsame)

/-- What `cache_header_init` stores. -/
def headerEvents (m : Mem) (base n : Nat) : List (Event Site) :=
  if cacheMagic m base = cacheHeaderMagic then []
  else [.store .cache (base + 8) (Mem.bytes64 n)] ++ .barrier ::
    ([.store .cache base (Mem.bytes64 cacheHeaderMagic)] ++ .barrier :: [])

/-- An event of the header of the cache. -/
def HeaderEvent (base : Nat) (e : Event Site) : Prop :=
  ∀ lo hi, hi ≤ base ∨ base + 16 ≤ lo → e.Avoids lo hi

theorem cacheHeaderInit_events (base n : Nat) (s : Store) :
    cacheHeaderInit base n s = .ok () (s.after (headerEvents s.mem base n)) ∧
      Ended (headerEvents s.mem base n) ∧ ∀ e ∈ headerEvents s.mem base n, HeaderEvent base e := by
  by_cases hmagic : cacheMagic s.mem base = cacheHeaderMagic
  · rw [headerEvents, if_pos hmagic, cacheHeaderInit, load_bind, if_pos hmagic, Machine.after_nil]
    exact ⟨rfl, Or.inl rfl, fun e he => absurd he List.not_mem_nil⟩
  · rw [headerEvents, if_neg hmagic, cacheHeaderInit, load_bind, if_neg hmagic]
    refine ⟨?_, Or.inr rfl, ?_⟩
    · rw [store64_bind, emit_bind, store64_bind, emit_run]
      rw [Machine.store64, Machine.store64, Machine.emit_after, Machine.emit_after,
        Machine.emit_after, Machine.emit_after, Machine.after_append, Machine.after_append,
        Machine.after_append]
      rfl
    · intro e he
      simp only [List.cons_append, List.nil_append, List.mem_cons, List.not_mem_nil, or_false] at he
      intro lo hi hd
      rcases he with rfl | rfl | rfl | rfl
      · rw [Event.Avoids, Mem.bytes64_length]
        omega
      · trivial
      · rw [Event.Avoids, Mem.bytes64_length]
        omega
      · trivial

/-- What `cache_init` stores in a buffer of `n + 1` slots: first the header, tagged `n`, and then the
cells. -/
theorem cacheInit_events (base : Nat) {n : Nat} (hn : 1 ≤ n) (s : Store) :
    ∃ log : List (Nat × Event Site), cacheInit base ((n + 1) * cacheCellSize) s =
        .ok (cacheAt base n) (s.after (log.map Prod.snd)) ∧
      Ended (log.map Prod.snd) ∧ eventsOf n log = headerEvents s.mem base n ∧
      (∀ x ∈ log, x.1 = n ∧ HeaderEvent base x.2 ∨ x.1 < n ∧ SlabEvent (slabOf base x.1) x.2) ∧
      ∀ j < n, ∀ t : Store, SameSlab base j s t → cellInit (slabOf base j) cacheCellSize t =
        .ok (cellAt (slabOf base j)) (t.after (eventsOf j log)) := by
  obtain ⟨hheader, hended, hevents⟩ := cacheHeaderInit_events base n s
  obtain ⟨log, hcells, hended', hlog, halone⟩ :=
    cacheInitCells_events base 0 n (s.after (headerEvents s.mem base n))
  rw [Nat.zero_add] at hlog halone
  have hfirst := tagged_snd n (headerEvents s.mem base n)
  refine ⟨(headerEvents s.mem base n).map (fun e => (n, e)) ++ log, ?_, ?_, ?_, ?_, ?_⟩
  · rw [cacheInit, slots_eq, always, check_bind_true _ (decide_eq_true (by omega)),
      Nat.add_sub_cancel, bind_ok hheader, ← slabOf_zero, bind_ok hcells, pure_run, cacheAt,
      List.range_eq_range', List.map_append, hfirst, Machine.after_append]
  · rw [List.map_append, hfirst]
    exact hended.append hended'
  · have hrest : eventsOf n log = [] := eventsOf_eq_nil fun x hx => by
      have := (hlog x hx).1.2
      omega
    rw [eventsOf_append, hrest, List.append_nil, eventsOf_tagged]
  · intro x hx
    rcases List.mem_append.1 hx with hx | hx
    · obtain ⟨e, he, rfl⟩ := List.mem_map.1 hx
      exact Or.inl ⟨rfl, hevents e he⟩
    · exact Or.inr ⟨(hlog x hx).1.2, (hlog x hx).2⟩
  · intro j hj t hsame
    have hother : eventsOf j ((headerEvents s.mem base n).map fun e => (n, e)) = [] :=
      eventsOf_eq_nil fun x hx => by
        obtain ⟨e, -, rfl⟩ := List.mem_map.1 hx
        exact Nat.ne_of_gt hj
    have hframe : SameSlab base j s (s.after (headerEvents s.mem base n)) := by
      have := base_add_le base j
      exact replay_agree fun e he => hevents e he _ _ (Or.inr (by omega))
    rw [eventsOf_append, hother, List.nil_append]
    exact halone j (Nat.zero_le j) hj t (hframe.symm.trans hsame)

/-! ## Opening a cache -/

/-- A buffer that `cache_init` makes a cache of in which only what was given is found. -/
structure Recoverable (base n : Nat) (given : List (Checksum × List UInt8)) (m : Mem) : Prop where
  header : cacheMagic m base = cacheHeaderMagic → cacheCellCount m base = n
  cell : ∀ i < n, cellHeaderSane m (slabOf base i + 1019872) = false ∨
    ∃ r, CellHolds chunkerLimits m (slabOf base i) r ∧
      ∀ c data, r.lookup c = some data → c.part % n = i ∧ (c, data) ∈ given

/-- The rings hold what was given. -/
def HoldsGiven (n : Nat) (given : List (Checksum × List UInt8)) (rings : Nat → Ring) : Prop :=
  ∀ i < n, (rings i).Inv chunkerLimits ∧
    ∀ c data, (rings i).lookup c = some data → c.part % n = i ∧ (c, data) ∈ given

/-- The ring that `cache_init` finds in a cell, or starts. -/
theorem Recoverable.opened (h : Recoverable base n given s.mem) (hi : i < n) :
    ∃ r t, cellInit (slabOf base i) cacheCellSize s = .ok (cellAt (slabOf base i)) t ∧
      CellHolds chunkerLimits t.mem (slabOf base i) r ∧
      (cellHeaderSane s.mem (slabOf base i + 1019872) = false ∧ r = Ring.empty ∨ t = s) ∧
      ∀ c data, r.lookup c = some data → c.part % n = i ∧ (c, data) ∈ given := by
  rcases h.cell i hi with hinsane | ⟨r, hholds, hgiven⟩
  · obtain ⟨s₁, hrun, -, -, -, hholds⟩ :=
      cellInit_insane (slabOf base i) chunkerLimits hinsane
    exact ⟨Ring.empty, _, hrun, hholds, Or.inl ⟨hinsane, rfl⟩, fun c data hdata => by cases hdata⟩
  · exact ⟨r, _, cellInit_sane hholds.sane, hholds, Or.inr rfl, hgiven⟩

theorem Recoverable.init (h : Recoverable base n given s.mem) (hn : 1 ≤ n)
    (hsize : (n + 1) * cacheCellSize < 2 ^ 64) :
    ∃ s' rings, cacheInit base ((n + 1) * cacheCellSize) s = .ok (cacheAt base n) s' ∧
      CacheHolds s'.mem base n rings ∧ HoldsGiven n given rings ∧
      ∀ i < n, cellHeaderSane s.mem (slabOf base i + 1019872) = false ∧ rings i = Ring.empty ∨
        SameSlab base i s s' := by
  obtain ⟨s', hrun, hmagic, hold, hnew, halone, -⟩ := cacheInit_spec base hn (slots_eq n) s
  have hcell : ∀ i < n, ∃ r, CellHolds chunkerLimits s'.mem (slabOf base i) r ∧
      (cellHeaderSane s.mem (slabOf base i + 1019872) = false ∧ r = Ring.empty ∨
        SameSlab base i s s') ∧
      ∀ c data, r.lookup c = some data → c.part % n = i ∧ (c, data) ∈ given := by
    intro i hi
    obtain ⟨r, t, hinit, hholds, hfrom, hgiven⟩ := h.opened hi
    obtain ⟨t', hinit', hsame⟩ := halone i hi s (Mem.Agree.refl _ _ _)
    rw [hinit, EStateM.Result.ok.injEq] at hinit'
    obtain ⟨-, rfl⟩ := hinit'
    refine ⟨r, hholds.congr hsame.symm, hfrom.imp_right fun heq => ?_, hgiven⟩
    rw [heq] at hsame
    exact hsame.symm
  have : Inhabited Ring := ⟨Ring.empty⟩
  choose! rings hholds hfrom hgiven using hcell
  refine ⟨s', rings, hrun, ⟨hmagic, ?_, hholds, fun i hi c hlookup => ?_⟩,
    fun i hi => ⟨(hholds i hi).inv, hgiven i hi⟩, hfrom⟩
  · by_cases hthere : cacheMagic s.mem base = cacheHeaderMagic
    · rw [hold hthere]
      exact h.header hthere
    · have hlt : n < 2 ^ 64 := by
        rw [cacheCellSize] at hsize
        omega
      rw [hnew hthere, Nat.mod_eq_of_lt hlt]
  · obtain ⟨data, hdata⟩ := Option.ne_none_iff_exists'.1 hlookup
    exact (hgiven i hi c data hdata).1

/-! ## Dying in `cache_init` -/

/-- A crash in the initialisation of a cell that has never been complete. -/
theorem cellInit_crash (hmagic : m.load32 (slab + 1019872) = 0)
    (hrun : cellInit slab cacheCellSize ⟨m, []⟩ = .ok (cellAt slab) ((⟨m, []⟩ : Store).after es))
    (hcrash : Crash m es d) :
    cellHeaderSane d (slab + 1019872) = false ∨ CellHolds chunkerLimits d slab Ring.empty := by
  have hunmade : ∀ {m' : Mem}, m'.load32 (slab + 1019872) = 0 →
      cellHeaderSane m' (slab + 1019872) = false := by
    intro m' h
    rw [cellHeaderSane, h]
    rfl
  obtain ⟨sf, s₁, hinit, hrestarted⟩ := cellHeaderInit_restarted slab ⟨m, []⟩
  obtain ⟨body, hbody, hevents⟩ := hrestarted.emits.eq_after
  subst hbody
  have hrun' := cellInit_restart (s := ⟨m, []⟩) (hunmade hmagic) hinit
  rw [hrun, EStateM.Result.ok.injEq, initialised_eq, Machine.after_append] at hrun'
  have hes : es = body ++ enabling slab := Machine.after_inj hrun'.2
  rw [hes] at hcrash
  rcases crash_enabling (fun e he => (hevents e he).ne_barrier) hcrash with
    ⟨kept, hkept, rfl⟩ | rfl | rfl
  · -- clearing leaves a magic number of zero as it is
    refine Or.inl (hunmade ?_)
    have hstays : ∀ (es : List (Event Site)) (m' : Mem), (∀ e ∈ es, InitEvent slab e) →
        m'.load32 (slab + 1019872) = 0 → (replay m' es).load32 (slab + 1019872) = 0 := by
      intro es
      induction es with
      | nil => exact fun m' _ h => h
      | cons e es ih =>
          intro m' hes h
          rw [List.forall_mem_cons] at hes
          refine ih _ hes.2 ?_
          rcases hes.1 with ⟨site, addr, n, rfl, -⟩ | hstore
          · exact (Mem.cleared_write m' addr n).load32 h
          · have hframe : m'.Agree (e.apply m') (slab + 1019872) (slab + 1019872 + 4) :=
              e.apply_agree (hstore.avoids (Or.inr (by omega)))
            rw [hframe.load32, h]
    exact hstays kept m (fun e he => hevents e (hkept.subset he)) hmagic
  · refine Or.inl (hunmade ?_)
    exact (hrestarted.zero.mono (Nat.le_refl _) (by omega)).load32
  · exact Or.inr (initialised_holds chunkerLimits hrestarted.zero hrestarted.topAt)

/-- A crash in the initialisation of the header. -/
theorem headerInit_crash {n : Nat} (hcount : cacheMagic m base = cacheHeaderMagic →
      cacheCellCount m base = n) (hlt : n < 2 ^ 64) (hcrash : Crash m (headerEvents m base n) d) :
    cacheMagic d base = cacheHeaderMagic → cacheCellCount d base = n := by
  by_cases hmagic : cacheMagic m base = cacheHeaderMagic
  · rw [headerEvents, if_pos hmagic] at hcrash
    rw [crash_nil hcrash]
    exact hcount
  have hbehind : cacheMagic (m.write (base + 8) (Mem.bytes64 n)) base = cacheMagic m base :=
    (Mem.write_agree m (base + 8) (Mem.bytes64 n) (Or.inl (Nat.le_refl _))).load64
  rw [headerEvents, if_neg hmagic] at hcrash
  rcases crash_barrier hcrash with hfirst | hsecond
  · rcases crash_store hfirst with rfl | rfl
    · exact hcount
    · intro h
      exact absurd (hbehind.symm.trans h) hmagic
  · have hstored : d = replay m [.store Site.cache (base + 8) (Mem.bytes64 n)] ∨
        d = (m.write (base + 8) (Mem.bytes64 n)).write base (Mem.bytes64 cacheHeaderMagic) := by
      rcases crash_barrier hsecond with hstore | hlast
      · exact crash_store hstore
      · exact Or.inr (crash_nil hlast)
    rcases hstored with rfl | rfl
    · intro h
      exact absurd (hbehind.symm.trans h) hmagic
    · intro _
      have hframe : (m.write (base + 8) (Mem.bytes64 n)).Agree
          ((m.write (base + 8) (Mem.bytes64 n)).write base (Mem.bytes64 cacheHeaderMagic))
          (base + 8) (base + 8 + 8) :=
        Mem.write_agree _ _ _ (Or.inr (by rw [Mem.bytes64_length]))
      rw [cacheCellCount, hframe.load64, Mem.load64_write_self, Nat.mod_eq_of_lt hlt]

theorem SlabEvent.avoids {e : Event Site} {lo hi : Nat} (h : SlabEvent slab e)
    (hd : hi ≤ slab ∨ slab + 1048576 ≤ lo) : e.Avoids lo hi := h.inside lo hi hd

/-- Dying while opening a cache none of whose cells has to be recovered. -/
theorem Recoverable.diesOpening (h : Recoverable base n given m) (hn : 1 ≤ n)
    (hsize : (n + 1) * cacheCellSize < 2 ^ 64)
    (hsafe : ∀ i < n, cellHeaderSane m (slabOf base i + 1019872) = true ∨
      m.load32 (slabOf base i + 1019872) = 0)
    (hd : DiesWithin m ⟨m, []⟩ (final (cacheInit base ((n + 1) * cacheCellSize) ⟨m, []⟩)) d) :
    Recoverable base n given d := by
  obtain ⟨log, hrun, -, hheader, hlog, halone⟩ := cacheInit_events base hn ⟨m, []⟩
  rw [hrun, final, diesWithin_start] at hd
  obtain ⟨pre, ⟨post, hpost⟩, hdurable⟩ := hd
  obtain ⟨front, back, rfl, rfl, -⟩ := List.map_eq_append_iff.1 hpost.symm
  have hamong := hdurable.among
  -- what is left of each part is what a crash in it alone may leave
  have hpart : ∀ i lo hi, (∀ x ∈ front ++ back, x.1 ≠ i → x.2.Avoids lo hi) →
      ∃ d', Crash m (eventsOf i (front ++ back)) d' ∧ d.Agree d' lo hi := by
    intro i lo hi hother
    obtain ⟨kept, hkept, hagree⟩ :=
      hamong.window fun x hx hne => hother x (List.mem_append_left _ hx) hne
    refine ⟨replay m kept, ⟨eventsOf i front, ?_, durable_iff_kept.2 ⟨kept, hkept, rfl⟩⟩, hagree⟩
    rw [eventsOf_append]
    exact List.prefix_append _ _
  constructor
  · have hlt : n < 2 ^ 64 := by
      rw [cacheCellSize] at hsize
      omega
    obtain ⟨d', hcrash, hagree⟩ := hpart n base (base + 16) fun x hx hne => by
      rcases hlog x hx with ⟨heq, -⟩ | ⟨-, hslab⟩
      · exact absurd heq hne
      · have := base_add_le base x.1
        exact hslab.avoids (Or.inl (by omega))
    rw [hheader] at hcrash
    have hcount := headerInit_crash h.header hlt hcrash
    rwa [cacheMagic, cacheCellCount, (hagree.mono (Nat.le_refl _) (by omega)).load64,
      (hagree.mono (by omega) (by omega)).load64] at hcount
  · intro i hi
    obtain ⟨d', hcrash, hagree⟩ := hpart i (slabOf base i)
        (slabOf base i + 1048576) fun x hx hne => by
      rcases hlog x hx with ⟨-, hevent⟩ | ⟨-, hslab⟩
      · have := base_add_le base i
        exact hevent _ _ (Or.inr (by omega))
      · refine hslab.avoids ?_
        rcases Nat.lt_or_gt_of_ne hne with hlt | hlt
        · exact Or.inr (slabOf_add_le base hlt)
        · exact Or.inl (slabOf_add_le base hlt)
    have hinit := halone i hi ⟨m, []⟩ (Mem.Agree.refl _ _ _)
    have hsane : ∀ {b}, cellHeaderSane d' (slabOf base i + 1019872) = b →
        cellHeaderSane d (slabOf base i + 1019872) = b := by
      intro b hb
      rw [← hb, cellHeaderSane_congr hagree.symm]
    rcases hsafe i hi with hthere | hmagic
    · -- a cell that is there is left alone
      rw [cellInit_sane (s := ⟨m, []⟩) hthere, EStateM.Result.ok.injEq] at hinit
      have hnothing : eventsOf i (front ++ back) = [] := by
        refine (Machine.after_inj (s := ⟨m, []⟩) ?_).symm
        rw [Machine.after_nil]
        exact hinit.2
      rw [hnothing] at hcrash
      rw [crash_nil hcrash] at hagree
      rcases h.cell i hi with hinsane | ⟨r, hholds, hgiven⟩
      · rw [hthere] at hinsane
        cases hinsane
      · exact Or.inr ⟨r, hholds.congr hagree.symm, hgiven⟩
    · rcases cellInit_crash hmagic hinit hcrash with hinsane | hholds
      · exact Or.inl (hsane hinsane)
      · exact Or.inr ⟨Ring.empty, hholds.congr hagree.symm, fun c data hdata => by cases hdata⟩

/-! ## Dying in calls -/

/-- What a call leaves in the ring was there, or is what the call was given. -/
theorem Ring.Inv.call_given {r r' : Ring} {call : CacheCall} {answer : Answer}
    (h : r.Inv chunkerLimits) (hsized : call.Sized 2049 24576)
    (hcall : r.call call.onCell = some (answer, r')) :
    r'.Inv chunkerLimits ∧ ∀ c data, r'.lookup c = some data →
      r.lookup c = some data ∨ call = .addChunk c data := by
  rcases Ring.call_cases hcall with ⟨rfl, -⟩ | ⟨c, buffer, hadd, -, hfresh, hring⟩
  · exact ⟨h, fun c data hdata => Or.inl hdata⟩
  · have hadd' : call = .addChunk c buffer := by
      cases call with
      | addChunk c' buffer' =>
          injection hadd with hc hbuffer
          rw [hc, hbuffer]
      | hasChunk c' => cases hadd
      | getChunk c' chunk => cases hadd
    subst hadd'
    have he : (chunkOf c buffer).IsChunk chunkerLimits := chunkOf_isChunk c hsized.1 hsized.2
    have hinv := h.add_chunk he hfresh hring
    refine ⟨hinv, fun c' data hdata => ?_⟩
    rcases h.lookup_add hinv hfresh hring hdata with ⟨rfl, rfl⟩ | ⟨-, hold⟩
    · exact Or.inr rfl
    · exact Or.inl hold

theorem Ring.Inv.calls_given {r r' : Ring} {calls : List CacheCall} {answers : List Answer}
    (h : r.Inv chunkerLimits) (hsized : ∀ call ∈ calls, call.Sized 2049 24576)
    (hcalls : runAll (cacheObjects base n).spec r calls = some (answers, r')) :
    ∀ c data, r'.lookup c = some data → r.lookup c = some data ∨ .addChunk c data ∈ calls := by
  induction calls generalizing r answers with
  | nil =>
      rw [runAll, Option.some.injEq, Prod.mk.injEq] at hcalls
      obtain ⟨-, rfl⟩ := hcalls
      exact fun c data hdata => Or.inl hdata
  | cons call rest ih =>
      obtain ⟨answer, r₁, answers₁, hcall, hrest, rfl⟩ := runAll_cons hcalls
      rw [List.forall_mem_cons] at hsized
      obtain ⟨hinv, hgiven⟩ := h.call_given hsized.1 hcall
      intro c data hdata
      rcases ih hinv hsized.2 hrest c data hdata with hold | hmem
      · exact (hgiven c data hold).imp_right fun heq => by rw [heq]; exact List.mem_cons_self
      · exact Or.inr (List.mem_cons_of_mem _ hmem)

theorem mem_givenTo {begun : List (CacheCall × Answer)} {c : Checksum} {data : List UInt8}
    (h : .addChunk c data ∈ begun.map Prod.fst) : (c, data) ∈ givenTo begun := by
  obtain ⟨⟨call, answer⟩, hmem, heq⟩ := List.mem_map.1 h
  have hcall : call = .addChunk c data := heq
  subst hcall
  exact List.mem_filterMap.2 ⟨_, hmem, rfl⟩

/-- Dying with calls under way. -/
theorem Recoverable.dies {rings : Nat → Ring} (hn : 1 ≤ n) (hholds : CacheHolds s.mem base n rings)
    (hgiven : HoldsGiven n given rings) (hsteps : Interleaved base n s.mem σ)
    (hd : DurableAmong s.mem σ.log d) : Recoverable base n (given ++ givenTo σ.begun) d := by
  have hlaw : (cacheObjects base n).Lawful := cacheObjects_lawful hn
  have hheader := header_same (Objects.crash_fixed hlaw hholds.rep hsteps hd)
  constructor
  · intro _
    exact hheader.2.trans hholds.count
  · intro i hi
    rcases Objects.crash_atomic hlaw hholds.rep hsteps hd i with htorn |
        ⟨calls, answers, r, hcalls, hrun, hrep⟩
    · exact Or.inl (CodesDiffer.insane htorn)
    · have hsub : calls ⊆ (cacheObjects base n).own σ i := by
        rcases hcalls with rfl | rfl
        · exact Objects.finished_subset _ σ i
        · exact List.Subset.refl _
      have hsized : ∀ call ∈ calls, call.Sized 2049 24576 := fun call hcall =>
        interleaved_sized hsteps call (Objects.mem_own (hsub hcall)).1
      refine Or.inr ⟨r, (hrep hi).holds, fun c data hdata => ⟨?_, ?_⟩⟩
      · exact (hrep hi).placed c (by rw [hdata]; exact Option.some_ne_none _)
      · rcases (hgiven i hi).1.calls_given hsized hrun c data hdata with hold | hmem
        · exact List.mem_append_left _ ((hgiven i hi).2 c data hold).2
        · exact List.mem_append_right _ (mem_givenTo (Objects.mem_own (hsub hmem)).1)

/-- Zeroes are taken for nothing. -/
theorem recoverable_zero (hz : m.Zero base (base + (n + 1) * cacheCellSize)) :
    Recoverable base n given m := by
  have hslots : (n + 1) * cacheCellSize = cacheCellSize * n + cacheCellSize := by
    rw [Nat.add_mul, Nat.one_mul, Nat.mul_comm]
  have hcell : cacheCellSize = 1048576 := rfl
  constructor
  · intro hmagic
    rw [cacheMagic, (hz.mono (Nat.le_refl _) (by omega)).load64] at hmagic
    cases hmagic
  · intro i hi
    have hlo := base_add_le base i
    have hhi : slabOf base i + 1048576 ≤ base + (n + 1) * cacheCellSize := by
      simp only [slabOf, cacheCellSize]
      omega
    exact Or.inl (cellHeaderSane_zero (hz.mono (by omega) hhi))

/-- Whatever happened to the buffer, `cache_init` makes a cache of it. -/
theorem Lifetime.recoverable (h : Lifetime base n given m) (hn : 1 ≤ n)
    (hsize : (n + 1) * cacheCellSize < 2 ^ 64) : Recoverable base n given m := by
  induction h with
  | zeroed hz => exact recoverable_zero hz
  | diesOpening _ hsafe hd ih => exact ih.diesOpening hn hsize hsafe hd
  | dies _ hinit hsteps hd ih =>
      obtain ⟨s', rings, hrun, hholds, hgiven, -⟩ := Recoverable.init (s := ⟨_, []⟩) ih hn hsize
      rw [hrun, EStateM.Result.ok.injEq] at hinit
      obtain ⟨-, rfl⟩ := hinit
      exact Recoverable.dies hn hholds hgiven hsteps hd

/-! ## Threads on a cache of any history -/

/-- What is in the rings after a call was given before, or to the call. -/
theorem HoldsGiven.call {rings rings' : Nat → Ring} {call : CacheCall} {answer : Answer}
    (h : HoldsGiven n given rings) (hn : 1 ≤ n) (hsized : call.Sized 2049 24576)
    (hcall : (cacheObjects base n).specAll rings call = some (answer, rings')) :
    HoldsGiven n (given ++ givenTo [(call, answer)]) rings' := by
  obtain ⟨⟨answer', r⟩, hspec, heq⟩ := Option.map_eq_some_iff.1 hcall
  rw [Prod.mk.injEq] at heq
  obtain ⟨rfl, rfl⟩ := heq
  obtain ⟨hinv, hgiven⟩ := (h _ (Nat.mod_lt _ hn)).1.call_given hsized hspec
  intro i hi
  by_cases hindex : i = (cacheObjects base n).index call
  · subst hindex
    rw [Function.update_self]
    refine ⟨hinv, fun c data hdata => ?_⟩
    rcases hgiven c data hdata with hold | rfl
    · obtain ⟨hpart, hmem⟩ := (h _ hi).2 c data hold
      exact ⟨hpart, List.mem_append_left _ hmem⟩
    · exact ⟨rfl, List.mem_append_right _ (mem_givenTo List.mem_cons_self)⟩
  · rw [Function.update_of_ne hindex]
    refine ⟨(h i hi).1, fun c data hdata => ?_⟩
    obtain ⟨hpart, hmem⟩ := (h i hi).2 c data hdata
    exact ⟨hpart, List.mem_append_left _ hmem⟩

theorem Lifetime.opened (h : Lifetime base n given m) (hn : 1 ≤ n)
    (hsize : (n + 1) * cacheCellSize < 2 ^ 64)
    (hinit : cacheInit base ((n + 1) * cacheCellSize) ⟨m, []⟩ = .ok (cacheAt base n) s) :
    ∃ rings, CacheHolds s.mem base n rings ∧ HoldsGiven n given rings := by
  obtain ⟨s', rings, hrun, hholds, hgiven, -⟩ :=
    Recoverable.init (s := ⟨m, []⟩) (h.recoverable hn hsize) hn hsize
  rw [hrun, EStateM.Result.ok.injEq] at hinit
  obtain ⟨-, rfl⟩ := hinit
  exact ⟨rings, hholds, hgiven⟩

end

end Theo
