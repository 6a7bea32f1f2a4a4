import Mathlib.Data.List.Infix
import Theo.Lib.Local
import Theo.Lib.Persist

set_option autoImplicit false

/-! # Threads that share a memory

A log of the events of several threads has each event tagged with its thread, in the order in which
they were issued. A barrier makes durable what its own thread has stored before it, and says nothing
of the other threads (`DurableAmong`). What is left of a part of memory that only one thread stores to
is therefore what a crash of that thread alone may leave (`DurableAmong.window`). -/

namespace ByteMachine

variable {ι τ : Type} [DecidableEq ι] {m m' d : Mem} {es done pending kept : List (Event τ)}
  {log : List (ι × Event τ)} {i : ι} {lo hi : Nat}

/-! ## What may be left of a log -/

/-- `kept` may be left of `es`: everything up to the last barrier, and any part of the rest. -/
def Kept (es kept : List (Event τ)) : Prop :=
  kept.Sublist es ∧ ∀ pre, pre ++ [.barrier] <+: es → pre ++ [.barrier] <+: kept

/-- Nothing is pending after `es`. -/
def Ended (es : List (Event τ)) : Prop := es = [] ∨ es.getLast? = some .barrier

theorem kept_append (hpend : ∀ e ∈ pending, e ≠ .barrier) (hsub : kept.Sublist pending) :
    Kept (done ++ pending) (done ++ kept) := by
  refine ⟨(List.Sublist.refl done).append hsub, fun pre hpre => ?_⟩
  rcases List.prefix_or_prefix_of_prefix hpre (List.prefix_append done pending) with hin | hout
  · exact hin.trans (List.prefix_append done kept)
  · obtain ⟨rest, hrest⟩ := hout
    rw [← hrest, List.prefix_append_right_inj] at hpre
    cases hlast : rest.getLast? with
    | none =>
        rw [List.getLast?_eq_none_iff.1 hlast, List.append_nil] at hrest
        exact hrest ▸ List.prefix_append done kept
    | some e =>
        -- the barrier would be pending
        have hbarrier : (done ++ rest).getLast? = some .barrier := by
          rw [hrest, List.getLast?_concat]
        rw [List.getLast?_append, hlast, Option.some_or, Option.some.injEq] at hbarrier
        exact absurd hbarrier (hpend e (hpre.subset (List.mem_of_getLast? hlast)))

/-- A log up to its last barrier, and the rest. -/
theorem exists_pending (es : List (Event τ)) : ∃ done pending, es = done ++ pending ∧ Ended done ∧
    ∀ e ∈ pending, e ≠ .barrier := by
  induction es with
  | nil => exact ⟨[], [], rfl, Or.inl rfl, fun e he => absurd he List.not_mem_nil⟩
  | cons e es ih =>
      obtain ⟨done, pending, rfl, hdone, hpend⟩ := ih
      by_cases hnil : done = []
      · subst hnil
        by_cases he : e = .barrier
        · exact ⟨[e], pending, rfl, Or.inr (by rw [he]; rfl), hpend⟩
        · exact ⟨[], e :: pending, rfl, Or.inl rfl, List.forall_mem_cons.2 ⟨he, hpend⟩⟩
      · refine ⟨e :: done, pending, rfl, Or.inr ?_, hpend⟩
        obtain ⟨x, xs, rfl⟩ := List.exists_cons_of_ne_nil hnil
        rw [List.getLast?_cons_cons]
        exact hdone.resolve_left hnil

theorem durable_iff_kept : Durable m es d ↔ ∃ kept, Kept es kept ∧ d = replay m kept := by
  constructor
  · rintro ⟨done, pending, kept, rfl, -, hpend, hsub, rfl⟩
    exact ⟨done ++ kept, kept_append hpend hsub, (replay_append _ _ _).symm⟩
  · rintro ⟨kept, ⟨hsub, hall⟩, rfl⟩
    obtain ⟨done, pending, rfl, hdone, hpend⟩ := exists_pending es
    have hprefix : done <+: kept := by
      rcases hdone with rfl | hlast
      · exact List.nil_prefix
      · obtain ⟨pre, rfl⟩ := List.getLast?_eq_some_iff.1 hlast
        exact hall pre (List.prefix_append _ _)
    obtain ⟨rest, rfl⟩ := hprefix
    exact ⟨done, pending, rest, rfl, hdone, hpend, (List.append_sublist_append_left done).1 hsub,
      replay_append _ _ _⟩

theorem Ended.durable (h : Ended es) (hd : Durable m es d) : d = replay m es := by
  obtain ⟨kept, ⟨hsub, hall⟩, rfl⟩ := durable_iff_kept.1 hd
  rcases h with rfl | hlast
  · rw [List.sublist_nil.1 hsub]
  · obtain ⟨pre, rfl⟩ := List.getLast?_eq_some_iff.1 hlast
    rw [hsub.antisymm (hall pre List.prefix_rfl).sublist]

/-- Behind an ended log, only what follows may be lost. -/
theorem Ended.durable_append (h : Ended done) (hd : Durable m (done ++ es) d) :
    Durable (replay m done) es d := by
  rcases h with rfl | hlast
  · exact hd
  · obtain ⟨pre, rfl⟩ := List.getLast?_eq_some_iff.1 hlast
    rw [List.append_assoc, List.singleton_append] at hd
    rw [replay_append]
    exact (durable_barrier pre es).1 hd

theorem Ended.append (h : Ended done) (h' : Ended es) : Ended (done ++ es) := by
  rcases h' with rfl | hlast
  · rwa [List.append_nil]
  · exact Or.inr (by rw [List.getLast?_append, hlast, Option.some_or])

/-- Where two memories agree, so do those that are left. -/
theorem Crash.same (hcrash : Crash m es d) (m' : Mem) :
    ∃ d', Crash m' es d' ∧ ∀ lo hi, m.Agree m' lo hi → d.Agree d' lo hi := by
  obtain ⟨pre, hpre, hd⟩ := hcrash
  obtain ⟨kept, hkept, rfl⟩ := durable_iff_kept.1 hd
  exact ⟨replay m' kept, ⟨pre, hpre, durable_iff_kept.2 ⟨kept, hkept, rfl⟩⟩,
    fun lo hi h => replay_same h kept⟩

/-! ## Tagged logs -/

/-- The events of thread `i`. -/
def eventsOf (i : ι) (log : List (ι × Event τ)) : List (Event τ) :=
  (log.filter fun x => x.1 = i).map Prod.snd

theorem eventsOf_append (i : ι) (log log' : List (ι × Event τ)) :
    eventsOf i (log ++ log') = eventsOf i log ++ eventsOf i log' := by
  rw [eventsOf, List.filter_append, List.map_append, eventsOf, eventsOf]

theorem eventsOf_own (i : ι) (e : Event τ) : eventsOf i [(i, e)] = [e] := by
  rw [eventsOf, List.filter_cons_of_pos (by simp)]
  rfl

theorem eventsOf_other {j : ι} (h : j ≠ i) (e : Event τ) : eventsOf i [(j, e)] = [] := by
  rw [eventsOf, List.filter_cons_of_neg (by simpa using h)]
  rfl

omit [DecidableEq ι] in
theorem tagged_snd (i : ι) (es : List (Event τ)) : (es.map fun e => (i, e)).map Prod.snd = es := by
  rw [List.map_map]
  exact List.map_id es

theorem eventsOf_tagged (i : ι) (es : List (Event τ)) : eventsOf i (es.map fun e => (i, e)) = es := by
  rw [eventsOf, List.filter_eq_self.2, tagged_snd]
  intro x hx
  obtain ⟨e, -, rfl⟩ := List.mem_map.1 hx
  exact decide_eq_true rfl

/-- The log has no event of thread `i`. -/
theorem eventsOf_eq_nil (h : ∀ x ∈ log, x.1 ≠ i) : eventsOf i log = [] := by
  rw [eventsOf, List.map_eq_nil_iff, List.filter_eq_nil_iff]
  exact fun x hx => by simpa using h x hx

theorem mem_eventsOf {e : Event τ} (h : e ∈ eventsOf i log) : (i, e) ∈ log := by
  obtain ⟨⟨j, e'⟩, hx, rfl⟩ := List.mem_map.1 h
  rw [List.mem_filter, decide_eq_true_eq] at hx
  obtain ⟨hmem, rfl⟩ := hx
  exact hmem

theorem eventsOf_sublist {log' : List (ι × Event τ)} (h : log'.Sublist log) :
    (eventsOf i log').Sublist (eventsOf i log) := (h.filter _).map _

/-- Where the other threads store nothing, the events of one thread are all that matters. -/
theorem replay_eventsOf (hother : ∀ x ∈ log, x.1 ≠ i → x.2.Avoids lo hi) :
    (replay m (log.map Prod.snd)).Agree (replay m (eventsOf i log)) lo hi := by
  induction log generalizing m with
  | nil => exact Mem.Agree.refl _ _ _
  | cons x log ih =>
      obtain ⟨j, e⟩ := x
      rw [List.forall_mem_cons] at hother
      by_cases hj : j = i
      · rw [eventsOf, List.filter_cons_of_pos (by simpa using hj)]
        exact ih hother.2
      · rw [eventsOf, List.filter_cons_of_neg (by simpa using hj), ← eventsOf]
        have hframe : m.Agree (e.apply m) lo hi := e.apply_agree (hother.1 hj)
        exact (ih hother.2 (m := e.apply m)).trans (replay_same hframe _).symm

/-- `d` may be left when all threads die: of the events of each, everything up to its last barrier, and
any part of the rest. -/
def DurableAmong (m : Mem) (log : List (ι × Event τ)) (d : Mem) : Prop :=
  ∃ kept, kept.Sublist log ∧ (∀ i, Kept (eventsOf i log) (eventsOf i kept)) ∧
    d = replay m (kept.map Prod.snd)

/-- A part of memory that one thread stores to is left as if that thread had been alone. -/
theorem DurableAmong.window (h : DurableAmong m log d)
    (hother : ∀ x ∈ log, x.1 ≠ i → x.2.Avoids lo hi) :
    ∃ kept, Kept (eventsOf i log) kept ∧ d.Agree (replay m kept) lo hi := by
  obtain ⟨kept, hsub, hkept, rfl⟩ := h
  exact ⟨_, hkept i, replay_eventsOf fun x hx => hother x (hsub.subset hx)⟩

theorem DurableAmong.frame (h : DurableAmong m log d) (hlog : ∀ x ∈ log, x.2.Avoids lo hi) :
    m.Agree d lo hi := by
  obtain ⟨kept, hsub, -, rfl⟩ := h
  refine replay_agree fun e he => ?_
  obtain ⟨x, hx, rfl⟩ := List.mem_map.1 he
  exact hlog x (hsub.subset hx)

/-- What one thread does may be tagged in any way: less is known to be durable then. -/
theorem Durable.among (h : Durable m (log.map Prod.snd) d) : DurableAmong m log d := by
  obtain ⟨done, pending, kept, hsplit, -, hpend, hsub, rfl⟩ := h
  obtain ⟨front, back, rfl, rfl, rfl⟩ := List.map_eq_append_iff.1 hsplit
  obtain ⟨left, hleft, rfl⟩ := List.sublist_map_iff.1 hsub
  refine ⟨front ++ left, (List.Sublist.refl front).append hleft, fun i => ?_, ?_⟩
  · rw [eventsOf_append, eventsOf_append]
    refine kept_append (fun e he => ?_) (eventsOf_sublist hleft)
    exact hpend e (List.mem_map.2 ⟨_, mem_eventsOf he, rfl⟩)
  · rw [List.map_append, replay_append]

end ByteMachine
