import Theo.Cell.Observe

set_option autoImplicit false

/-! # The shape of a reachable cell

Three invariants of every cell that insertions lead to, as statements about its bytes: the directory
lists the chunks of the body, the body is a chain of entries linked both ways, and the body and the
directory keep apart, in between insertions and while one is under way. -/

namespace Theo

open ByteMachine BucketIndex

/-- An event of an insertion: of its part between the integrity codes, or around it. -/
def InsertEvent (slab : Nat) (visits : Nat → Prop) (top overflow : Nat) (e : Event Site) : Prop :=
  AddEvent slab visits top overflow e ∨ e = .barrier ∨
    e.StoreIn .integrity (slab + 1019884) (slab + 1019892)

section

variable {l : Limits} {slab : Nat} {s s' : Store} {r : Ring} {c : Checksum} {buffer : List UInt8}

theorem entered_emits {visits : Nat → Prop} {t o : Nat} (s : Store) :
    Emits (InsertEvent slab visits t o) s (entered s slab) :=
  ((Emits.store32_in s (Nat.le_refl _) (by omega)).mono fun _ he => Or.inr (Or.inr he)).trans
    (Emits.emit _ (Or.inr (Or.inl rfl)))

theorem left_emits {visits : Nat → Prop} {t o : Nat} (s : Store) :
    Emits (InsertEvent slab visits t o) s (left s slab) :=
  ((Emits.emit s (Or.inr (Or.inl rfl))).trans
    ((Emits.store32_in (s.emit .barrier) (by omega) (by omega)).mono fun _ he =>
      Or.inr (Or.inr he))).trans (Emits.emit _ (Or.inr (Or.inl rfl)))

/-- How an insertion into a cell that holds a ring ends, and what it has done by then. -/
theorem cellAddChunk_result (h : CellHolds chunkerLimits s.mem slab r) (c : Checksum)
    (hlo : 2049 ≤ buffer.length) (hhi : buffer.length ≤ 24576) :
    (∃ added s' r', cellAddChunk (cellAt slab) c buffer s = .ok added s' ∧
      CellHolds chunkerLimits s'.mem slab r' ∧
      Emits (InsertEvent slab (Boundary slab r) r'.top r'.dir.stack.length) s s') ∨
    ∃ s', cellAddChunk (cellAt slab) c buffer s = .error .always s' ∧
      Emits (InsertEvent slab (Boundary slab r) r.top 0) s s' := by
  rcases chunker_cases (c := c) h hlo hhi with ⟨-, hrun⟩ | ⟨-, r', s₁, -, hrun, hholds, hemits⟩ |
      ⟨-, -, s₁, hrun, hemits⟩
  · exact Or.inl ⟨false, s, r, hrun, h, Emits.refl _ s⟩
  · exact Or.inl ⟨true, _, r', hrun, hholds, ((entered_emits s).trans
      (hemits.mono fun _ he => Or.inl he)).trans (left_emits s₁)⟩
  · exact Or.inr ⟨s₁, hrun, (entered_emits s).trans (hemits.mono fun _ he => Or.inl he)⟩

/-! ## The directory and the body -/

theorem CellHolds.keys (h : CellHolds l s.mem slab r) :
    c ∈ (bodyPairs s.mem slab).map Prod.fst ↔ r.lookup c ≠ none := by
  have hroom := h.inv.room
  rw [h.rep.bodyPairs (by omega), List.map_map, Ne, Ring.lookup_eq_none, Ring.Fresh,
    Decidable.not_not]
  rfl

/-- The directory lists the chunks of the body, each once, with its offset and its checksum. An
insertion returns false exactly for the checksums it lists, and then stores nothing. -/
theorem directory_agrees_body (h : Reachable 2049 24576 slab s) :
    ((dirEntries s.mem (cellAt slab).cellHeader).map
      fun entry => (entry.checksum, entry.offset)).Perm (bodyPairs s.mem slab) ∧
    ((bodyPairs s.mem slab).map Prod.fst).Nodup ∧
    ∀ c buffer, 2049 ≤ buffer.length → buffer.length ≤ 24576 →
      ((∃ s', cellAddChunk (cellAt slab) c buffer s = .ok false s') ↔
        c ∈ (bodyPairs s.mem slab).map Prod.fst) ∧
      ∀ s', cellAddChunk (cellAt slab) c buffer s = .ok false s' → s' = s := by
  obtain ⟨r, hr⟩ := h.holds
  have hroom := hr.inv.room
  refine ⟨?_, ?_, fun c buffer hlo hhi => ?_⟩
  · rw [hr.rep.bodyPairs (by omega)]
    exact (hr.rep.header.dirEntries hr.inv.index).map _
  · rw [hr.rep.bodyPairs (by omega), List.map_map]
    exact hr.inv.index.nodup
  · rw [hr.keys]
    rcases chunker_cases (c := c) hr hlo hhi with ⟨hstored, hrun⟩ |
        ⟨hfresh, r', s₁, -, hrun, -⟩ | ⟨hfresh, -, s₁, hrun, -⟩
    · refine ⟨iff_of_true ⟨s, hrun⟩ hstored, fun s' hs' => ?_⟩
      rw [hrun, EStateM.Result.ok.injEq] at hs'
      exact hs'.2.symm
    · have hno : ∀ s', cellAddChunk (cellAt slab) c buffer s ≠ .ok false s' := fun s' hs' => by
        rw [hrun, EStateM.Result.ok.injEq] at hs'
        cases hs'.1
      exact ⟨iff_of_false (fun ⟨s', hs'⟩ => hno s' hs') (fun hne => hne hfresh),
        fun s' hs' => absurd hs' (hno s')⟩
    · have hno : ∀ s', cellAddChunk (cellAt slab) c buffer s ≠ .ok false s' := fun s' hs' => by
        rw [hrun] at hs'
        cases hs'
      exact ⟨iff_of_false (fun ⟨s', hs'⟩ => hno s' hs') (fun hne => hne hfresh),
        fun s' hs' => absurd hs' (hno s')⟩

/-- In a cell with one chunk. -/
theorem directory_agrees_body_one : ∃ s, Reachable 2049 24576 0 s ∧
    (bodyPairs s.mem 0).map Prod.fst = [.fill 1] ∧
    ((dirEntries s.mem (cellAt 0).cellHeader).map
      fun entry => (entry.checksum, entry.offset)).Perm (bodyPairs s.mem 0) := by
  obtain ⟨s, hs, hholds⟩ := reachable_one
  refine ⟨s, hs, ?_, (directory_agrees_body hs).1⟩
  have hroom := hholds.inv.room
  rw [hholds.rep.bodyPairs (by omega)]
  rfl

/-! ## The chain of body entries -/

/-- The `n` entries in front of the top, each of which says where the next begins and records the
size of the one before it. At most the one where the next insertion goes is free. -/
structure Chain (m : Mem) (slab n : Nat) : Prop where
  top : bodyOffset m slab n = topEntryOffset m (cellBodyPtr (cellAt slab).cellHeader)
  topEntry : ∀ k ≤ n, cellBodyEntryTop m (slab + bodyOffset m slab k) = true ↔ k = n
  topBits : (entryBits m (slab + bodyOffset m slab n)).freeSpace = 1 ∧
    (entryBits m (slab + bodyOffset m slab n)).size = 0
  first : (entryBits m slab).previousSize = 0
  linked : ∀ k < n, (entryBits m (slab + bodyOffset m slab (k + 1))).previousSize =
    (entryBits m (slab + bodyOffset m slab k)).size
  next : ∃ k ≤ n, bodyOffset m slab k = nextEntryOffset m (cellBodyPtr (cellAt slab).cellHeader)
  free : ∀ k < n, cellBodyEntryFree m (slab + bodyOffset m slab k) = true →
    bodyOffset m slab k = nextEntryOffset m (cellBodyPtr (cellAt slab).cellHeader)

/-- The entry after `k` steps of a walk. -/
theorem CellRep.entry_at {m : Mem} (h : CellRep m slab r) {xs ys : List Entry} {x : Entry}
    (hsplit : r.entries = xs ++ x :: ys) :
    EntryAt m (slab + Theo.bodyOffset m slab xs.length) (prevOf 0 xs) x := by
  have hbody := h.body
  rw [hsplit, seg_append] at hbody
  rw [h.bodyOffset hsplit]
  exact hbody.2.1

theorem CellRep.top_at {m : Mem} (h : CellRep m slab r) :
    TopAt m (slab + Theo.bodyOffset m slab r.entries.length) (prevOf 0 r.entries) := by
  rw [h.bodyOffset (List.append_nil _).symm]
  exact h.top

theorem exists_split {es : List Entry} {k : Nat} (hk : k < es.length) :
    ∃ xs x ys, es = xs ++ x :: ys ∧ xs.length = k :=
  ⟨es.take k, es[k], es.drop (k + 1), by
    rw [← List.drop_eq_getElem_cons hk, List.take_append_drop], List.length_take_of_le (by omega)⟩

/-- The size and the back links of neighbours agree, the top included. -/
theorem CellRep.linked {m : Mem} (h : CellRep m slab r) {xs ys : List Entry} {x : Entry}
    (hsplit : r.entries = xs ++ x :: ys) :
    (entryBits m (slab + Theo.bodyOffset m slab (xs.length + 1))).previousSize = x.size := by
  have hlast : prevOf 0 (xs ++ [x]) = x.size := by rw [prevOf_append]; rfl
  have hsplit' : r.entries = (xs ++ [x]) ++ ys := by rw [hsplit, List.append_assoc]; rfl
  have hlength : (xs ++ [x]).length = xs.length + 1 := by rw [List.length_append, List.length_singleton]
  rw [← hlength]
  cases ys with
  | nil =>
      rw [List.append_nil] at hsplit'
      have htop := h.top_at
      rw [hsplit'] at htop
      rw [show entryBits m _ = _ from htop, hlast]
  | cons y ys => rw [(h.entry_at hsplit').bits, hlast]

theorem CellShaped.chain {m : Mem} (h : CellShaped l m slab r) : Chain m slab r.entries.length where
  top := by
    rw [cellBodyPtr_cellAt, h.rep.topOffset]
    exact h.rep.bodyOffset (List.append_nil _).symm
  topEntry k hk := by
    rcases Nat.lt_or_eq_of_le hk with hk | rfl
    · obtain ⟨xs, x, ys, hsplit, rfl⟩ := exists_split hk
      rw [(h.rep.entry_at hsplit).top]
      exact iff_of_false Bool.false_ne_true (by omega)
    · exact iff_of_true h.rep.top_at.top rfl
  topBits := by
    rw [show entryBits m _ = _ from h.rep.top_at]
    exact ⟨rfl, rfl⟩
  first := by
    cases hentries : r.entries with
    | nil =>
        have htop := h.rep.top
        rw [Ring.top, hentries, span_nil, Nat.add_zero] at htop
        rw [show entryBits m slab = _ from htop]
        rfl
    | cons e es =>
        have hbody := h.rep.body
        rw [hentries] at hbody
        rw [hbody.1.bits]
  linked k hk := by
    obtain ⟨xs, x, ys, hsplit, rfl⟩ := exists_split hk
    rw [h.rep.linked hsplit, (h.rep.entry_at hsplit).bits]
  next := by
    refine ⟨r.below.length, by rw [Ring.entries, List.length_append]; omega, ?_⟩
    rw [cellBodyPtr_cellAt, h.rep.nextOffset]
    exact h.rep.bodyOffset rfl
  free k hk hfree := by
    obtain ⟨xs, x, ys, hsplit, rfl⟩ := exists_split hk
    rw [(h.rep.entry_at hsplit).free] at hfree
    rw [cellBodyPtr_cellAt, h.rep.nextOffset, h.rep.bodyOffset hsplit, Ring.next]
    -- the first entry behind the cut is the only one that may be free
    rw [Ring.entries] at hsplit
    rcases List.append_eq_append_iff.1 hsplit with ⟨mid, hxs, habove⟩ | ⟨mid, hbelow, hx⟩
    · cases mid with
      | nil => rw [hxs, List.append_nil]
      | cons y mid =>
          have hlive := h.shape.above_live x (by rw [habove]; simp)
          rw [hfree] at hlive
          cases hlive
    · cases mid with
      | nil => rw [hbelow, List.append_nil]
      | cons y mid =>
          rw [List.cons_append, List.cons.injEq] at hx
          have hlive := h.shape.below_live x (by rw [hbelow, hx.1]; simp)
          rw [hfree] at hlive
          cases hlive

theorem Boundary.offset {m : Mem} (h : CellRep m slab r) {ptr : Nat} (hptr : Boundary slab r ptr) :
    ∃ k ≤ r.entries.length, ptr = slab + Theo.bodyOffset m slab k := by
  obtain ⟨xs, ys, hsplit, rfl⟩ := hptr
  exact ⟨xs.length, by rw [hsplit, List.length_append]; omega, by rw [h.bodyOffset hsplit]⟩

theorem InsertEvent.visited {visits : Nat → Prop} {t o ptr : Nat}
    (h : InsertEvent slab visits t o (.mark (.visit ptr))) : visits ptr := by
  rcases h with (⟨_, _, heq, -⟩ | (⟨_, _, heq, -⟩ | ⟨_, _, heq, -⟩ | ⟨_, _, heq, -⟩ | ⟨_, _, heq, -⟩) |
    ⟨_, _, heq, -⟩ | ⟨_, _, -, heq⟩ | ⟨_, hptr, heq⟩) | heq | ⟨_, _, heq, -⟩
  case inl.inr.inr.inr.inr =>
    rw [Event.mark.injEq, Site.visit.injEq] at heq
    rwa [heq]
  all_goals cases heq

theorem emits_visited {t o : Nat} (hrep : CellRep s.mem slab r)
    (h : Emits (InsertEvent slab (Boundary slab r) t o) s s') :
    ∃ es, s'.log = s.log ++ es ∧ ∀ ptr, .mark (.visit ptr) ∈ es →
      ∃ k ≤ r.entries.length, ptr = slab + Theo.bodyOffset s.mem slab k := by
  obtain ⟨es, hlog, -, hes⟩ := h
  exact ⟨es, hlog, fun ptr hptr => (hes _ hptr).visited.offset hrep⟩

/-- The body is a chain of entries from offset 0 to the top, linked both ways. An insertion always
ends, and its merge loop reads headers at the entries of the chain only. -/
theorem body_chain (h : Reachable 2049 24576 slab s) :
    ∃ n, Chain s.mem slab n ∧ ∀ c buffer, 2049 ≤ buffer.length → buffer.length ≤ 24576 →
      (∀ s', cellAddChunk (cellAt slab) c buffer s ≠ .error .diverges s') ∧
      ∀ s', (∃ added, cellAddChunk (cellAt slab) c buffer s = .ok added s') ∨
          (∃ e, cellAddChunk (cellAt slab) c buffer s = .error e s') →
        ∃ es, s'.log = s.log ++ es ∧ ∀ ptr, .mark (.visit ptr) ∈ es →
          ∃ k ≤ n, ptr = slab + bodyOffset s.mem slab k := by
  obtain ⟨r, hr⟩ := h.holds
  refine ⟨r.entries.length, hr.shaped.chain, fun c buffer hlo hhi => ?_⟩
  rcases cellAddChunk_result hr c hlo hhi with ⟨added, s₁, r', hrun, -, hemits⟩ | ⟨s₁, hrun, hemits⟩
  · rw [hrun]
    refine ⟨fun s' hs' => (nomatch hs'), ?_⟩
    rintro s' (⟨_, hs'⟩ | ⟨_, hs'⟩)
    · rw [EStateM.Result.ok.injEq] at hs'
      rw [← hs'.2]
      exact emits_visited hr.rep hemits
    · cases hs'
  · rw [hrun]
    refine ⟨fun s' hs' => (nomatch hs'), ?_⟩
    rintro s' (⟨_, hs'⟩ | ⟨_, hs'⟩)
    · cases hs'
    · rw [EStateM.Result.error.injEq] at hs'
      rw [← hs'.2]
      exact emits_visited hr.rep hemits

/-- In a cell with one chunk. -/
theorem body_chain_one : ∃ s n, Reachable 2049 24576 0 s ∧ Chain s.mem 0 n := by
  obtain ⟨s, hs, -⟩ := reachable_one
  obtain ⟨n, hn, -⟩ := body_chain hs
  exact ⟨s, n, hs, hn⟩

/-! ## The body and the directory keeping apart -/

/-- The room that the header and the overflow records take at the end of the slab. -/
def headerBytes (m : Mem) (slab : Nat) : Nat :=
  sizeofCellHeader + headerOverflowCount m (cellAt slab).cellHeader * sizeofCellDirEntry

theorem CellRep.apart {m : Mem} (h : CellRep m slab r) :
    topEntryOffset m (cellBodyPtr (cellAt slab).cellHeader) = r.top ∧
      headerBytes m slab = 28704 + 36 * r.dir.stack.length := by
  refine ⟨by rw [cellBodyPtr_cellAt, h.topOffset], ?_⟩
  rw [headerBytes, show (cellAt slab).cellHeader = slab + 1019872 by rw [cellAt],
    headerOverflowCount_eq h.header, sizeofCellHeader, sizeofCellDirEntry, Nat.mul_comm]

theorem InsertEvent.freeSpace {visits : Nat → Prop} {t o top overflow size result : Nat}
    (h : InsertEvent slab visits t o (.mark (.freeSpace top overflow size result))) :
    size = 1048576 ∧ top + 36 * overflow ≤ 1019836 ∧ result = 1019836 - (top + 36 * overflow) := by
  rcases h with (⟨_, _, heq, -⟩ | (⟨_, _, heq, -⟩ | ⟨_, _, heq, -⟩ | ⟨_, _, heq, -⟩ | ⟨_, _, heq, -⟩) |
    ⟨_, _, heq, -⟩ | ⟨_, _, hroom, heq⟩ | ⟨_, -, heq⟩) | heq | ⟨_, _, heq, -⟩
  case inl.inr.inr.inr.inl =>
    rw [Event.mark.injEq, Site.freeSpace.injEq] at heq
    obtain ⟨rfl, rfl, rfl, rfl⟩ := heq
    exact ⟨rfl, hroom, rfl⟩
  all_goals cases heq

theorem InsertEvent.body {visits : Nat → Prop} {t o addr : Nat} {bytes : List UInt8}
    (h : InsertEvent slab visits t o (.store .body addr bytes)) :
    slab ≤ addr ∧ addr + bytes.length ≤ slab + t + 36 := by
  rcases h with (⟨_, _, heq, hlo, hhi⟩ | (⟨_, _, heq, -⟩ | ⟨_, _, heq, -⟩ | ⟨_, _, heq, -⟩ |
    ⟨_, _, heq, -⟩) | ⟨_, _, heq, -⟩ | ⟨_, _, -, heq⟩ | ⟨_, -, heq⟩) | heq | ⟨_, _, heq, -⟩
  case inl.inl =>
    rw [Event.store.injEq] at heq
    obtain ⟨-, rfl, rfl⟩ := heq
    exact ⟨hlo, hhi⟩
  all_goals cases heq

theorem InsertEvent.overflowAdd {visits : Nat → Prop} {t o addr : Nat} {bytes : List UInt8}
    (h : InsertEvent slab visits t o (.store .overflowAdd addr bytes)) :
    slab + 1019872 - 36 * o ≤ addr := by
  rcases h with (⟨_, _, heq, -⟩ | (⟨_, _, heq, -⟩ | ⟨_, _, heq, -⟩ | ⟨_, _, heq, hlo, -⟩ |
    ⟨_, _, heq, -⟩) | ⟨_, _, heq, -⟩ | ⟨_, _, -, heq⟩ | ⟨_, -, heq⟩) | heq | ⟨_, _, heq, -⟩
  case inl.inr.inl.inr.inr.inl =>
    rw [Event.store.injEq] at heq
    obtain ⟨-, rfl, -⟩ := heq
    exact hlo
  all_goals cases heq

/-- The body and the directory keep apart. Whenever an insertion computes the free space, the result
is the true gap; what it stores in the body lies below the records that are there when it is over,
and the records it adds lie above the top that is there when it is over. -/
theorem body_directory_apart (h : Reachable 2049 24576 slab s) :
    topEntryOffset s.mem (cellBodyPtr (cellAt slab).cellHeader) + sizeofCellBodyEntry +
      headerBytes s.mem slab ≤ cacheCellSize ∧
    ∀ c buffer, 2049 ≤ buffer.length → buffer.length ≤ 24576 →
      ∀ added s', cellAddChunk (cellAt slab) c buffer s = .ok added s' →
        ∃ es, s'.log = s.log ++ es ∧
          (∀ top overflow size result, .mark (.freeSpace top overflow size result) ∈ es →
            size = cacheCellSize ∧
            top + sizeofCellBodyEntry + sizeofCellHeader + overflow * sizeofCellDirEntry ≤ size ∧
            result = size -
              (top + sizeofCellBodyEntry + sizeofCellHeader + overflow * sizeofCellDirEntry)) ∧
          (∀ addr bytes, .store .body addr bytes ∈ es →
            slab ≤ addr ∧
              addr + bytes.length ≤ slab + (cacheCellSize - headerBytes s'.mem slab)) ∧
          ∀ addr bytes, .store .overflowAdd addr bytes ∈ es →
            slab + topEntryOffset s'.mem (cellBodyPtr (cellAt slab).cellHeader) +
              sizeofCellBodyEntry ≤ addr := by
  obtain ⟨r, hr⟩ := h.holds
  constructor
  · have hroom := hr.inv.room
    rw [hr.rep.apart.1, hr.rep.apart.2, sizeofCellBodyEntry, cacheCellSize]
    omega
  · intro c buffer hlo hhi added s' hrun
    rcases cellAddChunk_result hr c hlo hhi with ⟨_, s₁, r', hrun', hholds, hemits⟩ |
        ⟨s₁, hrun', -⟩
    · rw [hrun', EStateM.Result.ok.injEq] at hrun
      obtain ⟨-, rfl⟩ := hrun
      -- each kind of event is bounded by the room that the cell has after the call
      obtain ⟨es, hlog, -, hes⟩ := hemits
      have hroom := hholds.inv.room
      refine ⟨es, hlog, fun top overflow size result hmem => ?_, fun addr bytes hmem => ?_,
        fun addr bytes hmem => ?_⟩
      · obtain ⟨rfl, hgap, rfl⟩ := (hes _ hmem).freeSpace
        simp only [sizeofCellBodyEntry, sizeofCellHeader, sizeofCellDirEntry]
        exact ⟨rfl, by omega, by omega⟩
      · have := (hes _ hmem).body
        rw [hholds.rep.apart.2, cacheCellSize]
        omega
      · have := (hes _ hmem).overflowAdd
        rw [hholds.rep.apart.1, sizeofCellBodyEntry]
        omega
    · rw [hrun'] at hrun
      cases hrun

/-- In a cell with one chunk. -/
theorem body_directory_apart_one : ∃ s, Reachable 2049 24576 0 s ∧
    topEntryOffset s.mem (cellBodyPtr (cellAt 0).cellHeader) + sizeofCellBodyEntry +
      headerBytes s.mem 0 ≤ cacheCellSize := by
  obtain ⟨s, hs, -⟩ := reachable_one
  exact ⟨s, hs, (body_directory_apart hs).1⟩

end

end Theo
