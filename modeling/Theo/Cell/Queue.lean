import Theo.Cell.Outcome
import Theo.Ring.Queue

set_option autoImplicit false

/-! # The cell as a queue

A cell forgets its chunks in the order in which they were stored. `overwriteOrder` reads that order
off the body; in a run of calls it is a part of the checksums that were added, each at its last
insertion (`calls_fifo`). -/

namespace Theo

open ByteMachine BucketIndex

/-- The checksums of the chunks in the order in which they will be overwritten: from the next
insertion on, and then from the start. -/
def overwriteOrder (m : Mem) (slab : Nat) : List Checksum :=
  let next := nextEntryOffset m (cellBodyPtr (cellAt slab).cellHeader)
  (((bodyPairs m slab).filter fun pair => next ≤ pair.2) ++
    (bodyPairs m slab).filter fun pair => pair.2 < next).map Prod.fst

/-- The insertions of a run that returned true. -/
def addedChunks (run : List (Call × Answer)) : List (Checksum × List UInt8) :=
  run.filterMap fun
    | (.addChunk c buffer, .added true) => some (c, buffer)
    | _ => none

section

variable {l : Limits} {slab : Nat} {m : Mem} {s s' : Store} {r r' : Ring} {c : Checksum}
  {buffer : List UInt8}

theorem addedChunks_cons (pair : Call × Answer) (run : List (Call × Answer)) :
    addedChunks (pair :: run) = addedChunks [pair] ++ addedChunks run :=
  List.filterMap_append (l := [pair])

/-- The order of a ring is the one that the bytes show. -/
theorem CellShaped.overwriteOrder (h : CellShaped l m slab r) :
    Theo.overwriteOrder m slab = r.order := by
  have hroom := h.shape.room
  have htop : r.top = r.next + span r.above := by rw [Ring.top, Ring.next, Ring.entries, span_append]
  have hnext : nextEntryOffset m (cellBodyPtr (cellAt slab).cellHeader) = r.next := h.rep.nextOffset
  have hlive : liveAt 0 r.entries = liveAt 0 r.below ++ liveAt r.next r.above := by
    rw [Ring.entries, liveAt_append, Nat.zero_add, Ring.next]
  have hbelow : ∀ y ∈ liveAt 0 r.below, y.offset < r.next := fun y hy => by
    have hy := (liveAt_offset hy (by rw [← Ring.next]; omega)).2
    rwa [Nat.zero_add, ← Ring.next] at hy
  have habove : ∀ y ∈ liveAt r.next r.above, r.next ≤ y.offset := fun y hy =>
    (liveAt_offset hy (by omega)).1
  have hkeys : ∀ (a : Nat) (es : List Entry),
      ((liveAt a es).map fun y => (y.checksum, y.offset)).map Prod.fst = chunkKeys es := fun a es => by
    rw [List.map_map, ← liveAt_keys a es]
    rfl
  have hbehind : ((bodyPairs m slab).filter fun pair => r.next ≤ pair.2) =
      (liveAt r.next r.above).map fun y => (y.checksum, y.offset) := by
    rw [h.rep.bodyPairs (by omega), hlive, List.map_append, List.filter_append,
      List.filter_eq_nil_iff.2, List.filter_eq_self.2, List.nil_append]
    · simpa using habove
    · simpa using hbelow
  have hfront : ((bodyPairs m slab).filter fun pair => pair.2 < r.next) =
      (liveAt 0 r.below).map fun y => (y.checksum, y.offset) := by
    rw [h.rep.bodyPairs (by omega), hlive, List.map_append, List.filter_append,
      List.filter_eq_self.2, List.filter_eq_nil_iff.2, List.append_nil]
    · simpa using habove
    · simpa using hbelow
  rw [Theo.overwriteOrder, hnext, hbehind, hfront, List.map_append, hkeys, hkeys, Ring.order,
    chunkKeys_append]

/-! ## Runs of a ring -/

/-- What a call does to the ring: nothing, or the insertion of a new chunk. -/
theorem Ring.call_cases {call : Call} {answer : Answer} (hcall : r.call call = some (answer, r')) :
    (r' = r ∧ addedChunks [(call, answer)] = []) ∨
    ∃ c buffer, call = .addChunk c buffer ∧ addedChunks [(call, answer)] = [(c, buffer)] ∧
      r.Fresh c ∧ r.add (chunkOf c buffer) = some r' := by
  cases call with
  | addChunk c buffer =>
      rw [Ring.call, Ring.insert] at hcall
      cases hlookup : r.lookup c with
      | some data =>
          rw [hlookup, Option.map_some, Option.some.injEq, Prod.mk.injEq] at hcall
          obtain ⟨rfl, rfl⟩ := hcall
          exact Or.inl ⟨rfl, rfl⟩
      | none =>
          rw [hlookup, Option.map_map, Option.map_eq_some_iff] at hcall
          obtain ⟨r₁, hadd, heq⟩ := hcall
          simp only [Function.comp_apply, Prod.mk.injEq] at heq
          obtain ⟨rfl, rfl⟩ := heq
          exact Or.inr ⟨c, buffer, rfl, rfl, lookup_eq_none.1 hlookup, hadd⟩
  | hasChunk c =>
      rw [Ring.call, Option.some.injEq, Prod.mk.injEq] at hcall
      obtain ⟨rfl, rfl⟩ := hcall
      exact Or.inl ⟨rfl, rfl⟩
  | getChunk c chunk =>
      simp only [Ring.call, Option.some.injEq, Prod.mk.injEq] at hcall
      obtain ⟨rfl, rfl⟩ := hcall
      exact Or.inl ⟨rfl, rfl⟩
  | entryCount =>
      rw [Ring.call, Option.some.injEq, Prod.mk.injEq] at hcall
      obtain ⟨rfl, rfl⟩ := hcall
      exact Or.inl ⟨rfl, rfl⟩
  | byteCount =>
      rw [Ring.call, Option.some.injEq, Prod.mk.injEq] at hcall
      obtain ⟨rfl, rfl⟩ := hcall
      exact Or.inl ⟨rfl, rfl⟩

theorem Ring.calls_cons {call : Call} {rest : List Call} {answers : List Answer}
    (h : r.calls (call :: rest) = some (answers, r')) :
    ∃ answer r₁ answers₁, r.call call = some (answer, r₁) ∧ r₁.calls rest = some (answers₁, r') ∧
      answers = answer :: answers₁ := by
  rw [Ring.calls] at h
  obtain ⟨⟨answer, r₁⟩, hcall, hmap⟩ := Option.bind_eq_some_iff.1 h
  obtain ⟨⟨answers₁, r₂⟩, hrest, heq⟩ := Option.map_eq_some_iff.1 hmap
  rw [Prod.mk.injEq] at heq
  obtain ⟨rfl, rfl⟩ := heq
  exact ⟨answer, r₁, answers₁, hcall, hrest, rfl⟩

/-- What every insertion of a new chunk keeps, a run keeps. -/
theorem Ring.calls_keep {P : List (Checksum × List UInt8) → Ring → Prop} {calls : List Call}
    {answers : List Answer} {done : List (Checksum × List UInt8)} (h : r.Inv chunkerLimits)
    (hP : P done r)
    (hstep : ∀ done c buffer (r r' : Ring), r.Inv chunkerLimits → P done r →
      (chunkOf c buffer).IsChunk chunkerLimits → r.Fresh c → r.add (chunkOf c buffer) = some r' →
      P (done ++ [(c, buffer)]) r')
    (hsized : ∀ call ∈ calls, call.Sized 2049 24576) (hcalls : r.calls calls = some (answers, r')) :
    r'.Inv chunkerLimits ∧ P (done ++ addedChunks (calls.zip answers)) r' := by
  induction calls generalizing r answers done with
  | nil =>
      rw [Ring.calls, Option.some.injEq, Prod.mk.injEq] at hcalls
      obtain ⟨rfl, rfl⟩ := hcalls
      exact ⟨h, by rwa [List.zip_nil_left, addedChunks, List.filterMap_nil, List.append_nil]⟩
  | cons call rest ih =>
      obtain ⟨answer, r₁, answers₁, hcall, hrest, rfl⟩ := Ring.calls_cons hcalls
      have hsized' : ∀ call' ∈ rest, call'.Sized 2049 24576 := fun call' hcall' =>
        hsized call' (List.mem_cons_of_mem _ hcall')
      rw [List.zip_cons_cons, addedChunks_cons, ← List.append_assoc]
      rcases Ring.call_cases hcall with ⟨rfl, hnone⟩ | ⟨c, buffer, rfl, hone, hfresh, hadd⟩
      · rw [hnone, List.append_nil]
        exact ih h hP hsized' hrest
      · obtain ⟨hlo, hhi⟩ := hsized (.addChunk c buffer) List.mem_cons_self
        have he : (chunkOf c buffer).IsChunk chunkerLimits := chunkOf_isChunk c hlo hhi
        rw [hone]
        exact ih (h.add_chunk he hfresh hadd) (hstep done c buffer r r₁ h hP he hfresh hadd) hsized'
          hrest

/-- The order is a part of the checksums that were added, each at its last insertion. -/
theorem Ring.calls_order {calls : List Call} {answers : List Answer}
    (hsized : ∀ call ∈ calls, call.Sized 2049 24576)
    (hcalls : Ring.empty.calls calls = some (answers, r)) :
    r.order.Sublist ((addedChunks (calls.zip answers)).map Prod.fst).dedup := by
  let P (done : List (Checksum × List UInt8)) (r : Ring) : Prop :=
    r.order.Sublist (done.map Prod.fst).dedup
  have hnew : P [] Ring.empty := List.nil_sublist _
  refine (Ring.calls_keep (Ring.empty_inv _) hnew ?_ hsized hcalls).2
  intro done c buffer r r' hinv horder he hfresh hadd
  show r'.order.Sublist ((done ++ [(c, buffer)]).map Prod.fst).dedup
  rw [List.map_append]
  exact (hinv.add_takes he hadd).sublist_dedup horder fun hmem => Ring.mem_order.1 hmem hfresh

/-! ## Runs of a cell -/

/-- A new cell begins with the empty ring. -/
theorem cellInit_holds (hz : s.mem.Zero slab (slab + cacheCellSize))
    (hinit : cellInit slab cacheCellSize s = .ok (cellAt slab) s') :
    CellHolds chunkerLimits s'.mem slab Ring.empty := by
  obtain ⟨s₁, hrun, -, -, -, hholds⟩ := cellInit_insane slab chunkerLimits (cellHeaderSane_zero hz)
  rw [hrun, EStateM.Result.ok.injEq] at hinit
  rwa [hinit.2] at hholds

/-- A run that returns is that of the ring. -/
theorem Cell.calls_ok {calls : List Call} {answers : List Answer}
    (h : CellHolds chunkerLimits s.mem slab r) (hsized : ∀ call ∈ calls, call.Sized 2049 24576)
    (hrun : (cellAt slab).calls calls s = .ok answers s') :
    ∃ r', r.calls calls = some (answers, r') ∧ CellHolds chunkerLimits s'.mem slab r' := by
  rcases Cell.calls_refine h hsized with ⟨s₁, -, habort, -⟩ |
      ⟨answers', r', s₁, hcalls, hok, hholds, -⟩
  · rw [habort] at hrun
    cases hrun
  · rw [hok, EStateM.Result.ok.injEq] at hrun
    obtain ⟨rfl, rfl⟩ := hrun
    exact ⟨r', hcalls, hholds⟩

/-! ## Runs of insertions of given sizes -/

/-- Insertions of buffers of the given sizes. -/
def addCalls (sizes : List (Checksum × Nat)) : List Call :=
  sizes.map fun add => .addChunk add.1 (someBytes add.2)

/-- A checksum stays new while others are added. -/
theorem Ring.Fresh.add {e : Entry} (h : r.Fresh c) (hne : e.checksum ≠ c)
    (hadd : r.add e = some r') : r'.Fresh c := by
  intro hmem
  obtain ⟨entry, hentry, hkey⟩ := List.mem_map.1 hmem
  obtain ⟨xs, y, ys, hsplit, hlive, rfl⟩ := Ring.mem_liveAt_iff.1 hentry
  have hy : y ∈ r'.entries := by rw [hsplit]; simp
  have hkey' : y.checksum = c := hkey
  rcases Ring.add_live hadd hy hlive with rfl | hold
  · exact hne hkey'
  · exact Ring.not_fresh_of_mem hold hlive (by rwa [hkey'])

/-- Chunks of different checksums, none of which is stored yet, are all added. -/
theorem Ring.calls_distinct {sizes : List (Checksum × Nat)}
    (hfresh : ∀ add ∈ sizes, r.Fresh add.1) (hnodup : (sizes.map Prod.fst).Nodup)
    (hrun : r.insertSizes sizes = some r') :
    r.calls (addCalls sizes) = some (sizes.map fun _ => .added true, r') := by
  induction sizes generalizing r with
  | nil =>
      rw [Ring.insertSizes, Option.some.injEq] at hrun
      rw [← hrun]
      rfl
  | cons add rest ih =>
      obtain ⟨c, size⟩ := add
      have hlookup : r.lookup c = none := Ring.lookup_eq_none.2 (hfresh _ List.mem_cons_self)
      rw [Ring.insertSizes, hlookup] at hrun
      obtain ⟨r₁, hadd, hrest⟩ := Option.bind_eq_some_iff.1 hrun
      rw [List.map_cons, List.nodup_cons] at hnodup
      have hchunk : r.add (chunkOf c (someBytes size)) = some r₁ := by
        rw [chunkOf, someBytes_length, hadd]
      have hcall : r.call (.addChunk c (someBytes size)) = some (.added true, r₁) := by
        rw [Ring.call, Ring.insert, hlookup, hchunk]
        rfl
      have hfresh' : ∀ add ∈ rest, r₁.Fresh add.1 := fun add hmem => by
        refine (hfresh add (List.mem_cons_of_mem _ hmem)).add (fun heq => hnodup.1 ?_) hchunk
        exact List.mem_map.2 ⟨add, hmem, heq.symm⟩
      have hrest' := ih hfresh' hnodup.2 hrest
      rw [addCalls, List.map_cons, ← addCalls, Ring.calls, hcall, Option.bind_some, hrest']
      rfl

/-- They are all added to a cell. -/
theorem CellHolds.calls_sizes {sizes : List (Checksum × Nat)} (h : CellHolds chunkerLimits s.mem slab r)
    (hsizes : ∀ add ∈ sizes, 2049 ≤ add.2 ∧ add.2 ≤ 24576)
    (hfresh : ∀ add ∈ sizes, r.lookup add.1 = none) (hnodup : (sizes.map Prod.fst).Nodup)
    (hrun : r.insertSizes sizes = some r') :
    (∀ call ∈ addCalls sizes, call.Sized 2049 24576) ∧ ∃ s',
      (cellAt slab).calls (addCalls sizes) s = .ok (sizes.map fun _ => .added true) s' ∧
      CellHolds chunkerLimits s'.mem slab r' := by
  have hsized : ∀ call ∈ addCalls sizes, call.Sized 2049 24576 := by
    intro call hcall
    obtain ⟨add, hadd, rfl⟩ := List.mem_map.1 hcall
    rw [Call.Sized, someBytes_length]
    exact hsizes add hadd
  have hcalls := Ring.calls_distinct (fun add hadd => Ring.lookup_eq_none.1 (hfresh add hadd)) hnodup
    hrun
  rcases Cell.calls_refine h hsized with ⟨s₁, hnone, -, -⟩ | ⟨answers, r₁, s', hsome, hok, hholds, -⟩
  · rw [hcalls] at hnone
    cases hnone
  · rw [hcalls, Option.some.injEq, Prod.mk.injEq] at hsome
    obtain ⟨rfl, rfl⟩ := hsome
    exact ⟨hsized, s', hok, hholds⟩

/-! ## First in, first out -/

/-- First in, first out: in every run of calls on a new cell that returns, the chunks stand in the
order of their last insertion, so that what is overwritten next is the oldest. An insertion takes
away the oldest, and at most one chunk more, and puts its own at the end. -/
theorem calls_fifo {s₀ : Store} (hz : s₀.mem.Zero slab (slab + cacheCellSize))
    (hinit : cellInit slab cacheCellSize s₀ = .ok (cellAt slab) s) {calls : List Call}
    {answers : List Answer} (hsized : ∀ call ∈ calls, call.Sized 2049 24576)
    (hrun : (cellAt slab).calls calls s = .ok answers s') :
    (overwriteOrder s'.mem slab).Sublist ((addedChunks (calls.zip answers)).map Prod.fst).dedup ∧
    ∀ c buffer s₁, 2049 ≤ buffer.length → buffer.length ≤ 24576 →
      cellAddChunk (cellAt slab) c buffer s' = .ok true s₁ →
      Fifo.Takes (overwriteOrder s'.mem slab) c (overwriteOrder s₁.mem slab) := by
  obtain ⟨r, hcalls, hholds⟩ := Cell.calls_ok (cellInit_holds hz hinit) hsized hrun
  rw [hholds.shaped.overwriteOrder]
  refine ⟨Ring.calls_order hsized hcalls, fun c buffer s₁ hlo hhi hadd => ?_⟩
  obtain ⟨-, r', hadd', hholds'⟩ := cellAddChunk_added hholds hlo hhi hadd
  rw [hholds'.shaped.overwriteOrder]
  exact hholds.inv.add_takes (chunkOf_isChunk c hlo hhi) hadd'

/-- A lap of small chunks and large ones, and one more large one that evicts the small ones. -/
theorem calls_fifo_overwriting : ∃ s answers s' s₁, cellInit 0 cacheCellSize zeroed = .ok (cellAt 0) s ∧
    (cellAt 0).calls (addCalls lapWithOverflow) s = .ok answers s' ∧
    overwriteOrder s'.mem 0 = lapWithOverflow.map Prod.fst ∧
    (overwriteOrder s'.mem 0).Sublist
      ((addedChunks ((addCalls lapWithOverflow).zip answers)).map Prod.fst).dedup ∧
    cellAddChunk (cellAt 0) (.numbered 52 52) (someBytes 24576) s' = .ok true s₁ ∧
    overwriteOrder s₁.mem 0 = (lapWithOverflow.drop 12).map Prod.fst ++ [.numbered 52 52] ∧
    Fifo.Takes (overwriteOrder s'.mem 0) (.numbered 52 52) (overwriteOrder s₁.mem 0) := by
  obtain ⟨s, -, -, hinit, -⟩ := overwrite_many
  have hnodup : (lapWithOverflow.map Prod.fst).Nodup := by decide +kernel
  obtain ⟨hsized, s', hrun, hholds⟩ := (cellInit_holds (zeroed_zero _ _) hinit).calls_sizes
    (by decide) (fun add _ => rfl) hnodup insertSizes_overflow
  obtain ⟨hfresh, hadd⟩ := add_overflow
  obtain ⟨s₁, hcall, hholds', -⟩ := hholds.addSize (by decide) hfresh hadd
  obtain ⟨hsublist, htakes⟩ := calls_fifo (zeroed_zero _ _) hinit hsized hrun
  obtain ⟨hlo, hhi⟩ := someBytes_largest
  refine ⟨s, _, s', _, hinit, hrun, ?_, hsublist, hcall, ?_, htakes _ _ _ hlo hhi hcall⟩
  · rw [hholds.shaped.overwriteOrder]
    decide +kernel
  · rw [hholds'.shaped.overwriteOrder]
    decide +kernel

end

end Theo
