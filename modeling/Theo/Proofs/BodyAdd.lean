import Theo.Proofs.Body

set_option autoImplicit false

/-! # Insertion into the body refines the ring

Each function of `cell_body.c` that an insertion goes through computes what `Theo.Ring.Basic` says,
on the bytes of a cell with a gap, and `cell_body_add` computes `Ring.add`. -/

namespace Theo

open ByteMachine BucketIndex

section

variable {s : Store} {slab next : Nat} {below rest : List Entry} {gap prev c d : Nat} {dir : Dir}

/-! ## Moving the top down -/

/-- The top goes to the end of `rest`, in front of which lies an entry of the size recorded there. -/
theorem lowered {t : Nat} (hbelow : Seg s.mem slab 0 below)
    (hrest : Seg s.mem (slab + (span below + gap)) prev rest)
    (hprev : (entryBits s.mem (slab + t)).previousSize = prevOf prev rest)
    (ht : t = span below + gap + span rest)
    (hnext : nextEntryOffset s.mem (slab + 1019892) = next)
    (hheader : HeaderRep s.mem (slab + 1019872) (c + liveCount rest) (d + liveBytes rest) dir)
    (hroom : span below + gap + span rest + 36 * dir.stack.length ≤ 1019836)
    (hc : c ≤ span below + gap) (hd : d ≤ span below + gap) :
    OpenRep ((topped s (slab + t)).store32 .bodyOffsets (slab + 1019892) t).mem
      slab next below gap prev rest c d dir := by
  let s₁ := topped s (slab + t)
  have hframe₁ : ∀ {lo hi}, (hi ≤ slab + t + 32 ∨ slab + t + 36 ≤ lo) →
      s.mem.Agree s₁.mem lo hi := fun h => topped_agree s _ h
  have hframe₂ : ∀ {lo hi}, (hi ≤ slab + 1019892 ∨ slab + 1019896 ≤ lo) →
      s₁.mem.Agree (s₁.store32 .bodyOffsets (slab + 1019892) t).mem lo hi :=
    fun h => Machine.store32_agree _ _ _ _ (by omega)
  have hframe : ∀ {lo hi}, (hi ≤ slab + t + 32 ∨ slab + t + 36 ≤ lo) →
      (hi ≤ slab + 1019892 ∨ slab + 1019896 ≤ lo) →
      s.mem.Agree (s₁.store32 .bodyOffsets (slab + 1019892) t).mem lo hi :=
    fun h h' => (hframe₁ h).trans (hframe₂ h')
  refine ⟨hbelow.congr (hframe (by omega) (by omega)), hrest.congr (hframe (by omega) (by omega)),
    ?_, ?_, ?_, ?_, hroom, hc, hd⟩
  · have htop := topped_topAt s (slab + t)
    rw [hprev] at htop
    rw [← ht]
    exact htop.congr (hframe₂ (by omega))
  · rw [topEntryOffset, Machine.load32_store32, ← ht]
    omega
  · rw [nextEntryOffset, (hframe (by omega) (by omega)).load32]
    exact hnext
  · exact hheader.congr (hframe (by omega) (by omega)) (hframe (by omega) (by omega))
      (hframe (by omega) (by omega))

theorem lowered_emits {t t' o : Nat} (s : Store) (visits : Nat → Prop) (ht : t ≤ t') :
    Emits (AddEvent slab visits t' o) s
      ((topped s (slab + t)).store32 .bodyOffsets (slab + 1019892) t) := by
  have hbody : Emits (AddEvent slab visits t' o) s (topped s (slab + t)) :=
    (topped_emits s (slab + t)).mono fun _ he => AddEvent.of_body he (by omega) (by omega)
  exact hbody.trans ((Emits.store32_in (topped s (slab + t)) (Nat.le_refl _) (by omega)).mono
    fun _ he => Or.inr (Or.inr (Or.inl he)))

/-! ## The index entry of an overwriting insertion -/

/-- The free space is noted, and nothing stored. -/
theorem freeSpace_spec (h : OpenRep s.mem slab next below gap prev rest c d dir) :
    ∃ s', cellBodyFreeSpace (slab + 1019892) (cellAt slab) s =
        .ok (bodyRoom (span below + gap + span rest) dir) s' ∧ s'.mem = s.mem ∧
      ∀ visits t o, Emits (AddEvent slab visits t o) s s' :=
  ⟨_, cellBodyFreeSpace_run h.topOffset h.header h.room, Machine.mem_emit_mark _ _,
    fun _ _ _ => freeSpace_emits s h.room⟩

/-- Giving up the entry `y` below the top. -/
theorem cellBodyDropBelowTop_spec {y : Entry} {dir' : Dir}
    (h : OpenRep s.mem slab next below gap prev (rest ++ [y]) c d dir) (hy : y.free = false)
    (hremove : dir.remove y.checksum = some dir') (hc : 0 < c + liveCount rest)
    (hd : 0 < d + liveBytes rest) :
    ∃ s', cellBodyDropBelowTop (cellAt slab) (slab + 1019892) s = .ok () s' ∧
      OpenRep s'.mem slab next below gap prev rest c d dir' ∧
      s.mem.Agree s'.mem slab (slab + (span below + gap)) ∧
      ∀ visits o, Emits (AddEvent slab visits (span below + gap + span rest) o) s s' := by
  obtain ⟨hrest, hentry, -⟩ := seg_append.1 h.restSeg
  have hroom := h.room
  have htop := h.top
  have hcle := h.count_le
  have hdle := h.bytes_le
  have hbytes := liveBytes_le_span rest
  rw [prevOf_append, prevOf, prevOf] at htop
  simp only [span_append, span_cons, span_nil, Entry.span] at hroom
  obtain ⟨t, ht⟩ : ∃ t, t = span below + gap + span rest := ⟨_, rfl⟩
  rw [Nat.add_assoc, ← ht] at hentry
  have hoffset : sub32 (span below + gap + span (rest ++ [y])) (y.size + 36) = t := by
    simp only [span_append, span_cons, span_nil, Entry.span]
    rw [sub32_of_le (by omega) (by omega)]
    omega
  have hheader : HeaderRep s.mem (slab + 1019872) (c + liveCount rest + 1)
      (d + liveBytes rest + y.size) dir := by
    have := h.header
    simp only [liveCount_append, liveBytes_append, liveCount, liveBytes, hy, Bool.false_eq_true,
      if_false, Nat.add_zero, ← Nat.add_assoc] at this
    exact this
  -- the entry below the top leaves the index, and the top takes its place
  obtain ⟨s₂, hrun, hheader₂, hemits₂⟩ := cellHeaderRemove_spec (z := y.size) hheader
    (hentry.chunk hy).1 (by rw [hentry.bits]) hremove (by omega) (by omega) (by omega) (by omega)
    (by omega)
  obtain ⟨hbody₂, hoffsets₂⟩ := headerStore_agree (k := dir.stack.length) hemits₂ (by omega)
    (by omega)
  have hcount := (Index.remove_noFuller hremove).1
  have hnext : nextEntryOffset s₂.mem (slab + 1019892) = next := by
    rw [nextEntryOffset, (hoffsets₂.mono (by omega) (by omega)).load32]
    exact h.nextOffset
  have hprev : (entryBits s₂.mem (slab + t)).previousSize = prevOf prev rest := by
    rw [entryBits_congr (hbody₂.mono (by omega) (by omega)), hentry.bits]
  rw [Nat.add_sub_cancel, Nat.add_sub_cancel] at hheader₂
  refine ⟨(topped s₂ (slab + t)).store32 .bodyOffsets (slab + 1019892) t, ?_, ?_, ?_,
    fun visits o => ?_⟩
  · simp only [cellBodyDropBelowTop, cellAt, load_bind, h.topOffset, sizeofCellBodyEntry]
    rw [show entryBits s.mem _ = _ from htop]
    simp only [hoffset, hentry.free, hy, Bool.not_false]
    rw [always, check_bind_true _ rfl, bind_ok hrun]
    rfl
  · exact lowered (h.belowSeg.congr (hbody₂.mono (by omega) (by omega)))
      (hrest.congr (hbody₂.mono (by omega) (by omega))) hprev ht hnext hheader₂ (by omega) hcle hdle
  · refine (hbody₂.mono (Nat.le_refl _) (by omega)).trans ?_
    exact (topped_agree s₂ _ (by omega)).trans (Machine.store32_agree _ _ _ _ (by omega))
  · rw [← ht]
    exact (hemits₂.mono fun _ he => Or.inr (Or.inl (he.mono (by omega) (by omega)))).trans
      (lowered_emits s₂ visits (Nat.le_refl _))

theorem cellBodyAddDirEntry_spec {e : CellDirEntry} (size : Nat) {rest' : List Entry} {dir' : Dir}
    (h : OpenRep s.mem slab next below gap prev rest c d dir) (hset : e.set = true)
    (hlive : ∀ x ∈ rest, x.free = false)
    (hmake : makeRoom (span below + gap + span rest) dir rest = some (rest', dir'))
    (hroom : span below + gap + span rest' + 36 * (dir'.stack.length + 1) ≤ 1019836)
    (hc : c + 1 ≤ span below + gap)
    (hd : d + size ≤ span below + gap) (hcpos : 0 < c + liveCount rest')
    (hdpos : 0 < d + liveBytes rest') :
    ∃ s', cellBodyAddDirEntry (cellAt slab) (slab + 1019892) e size s = .ok () s' ∧
      OpenRep s'.mem slab next below gap prev rest' (c + 1) (d + size) (dir'.add e) ∧
      s.mem.Agree s'.mem slab (slab + (span below + gap)) ∧
      ∀ visits, Emits (AddEvent slab visits (span below + gap + span rest')
        (dir'.add e).stack.length) s s' := by
  obtain ⟨s₁, hspace, hmem₁, hemits₁⟩ := freeSpace_spec h
  have h₁ : OpenRep s₁.mem slab next below gap prev rest c d dir := by rwa [hmem₁]
  rw [cellBodyAddDirEntry, bind_ok hspace]
  rw [makeRoom] at hmake
  by_cases hfree : 36 ≤ bodyRoom (span below + gap + span rest) dir
  · rw [if_pos hfree, Option.some.injEq, Prod.mk.injEq] at hmake
    obtain ⟨rfl, rfl⟩ := hmake
    obtain ⟨s', hrun, hrep, hbody, hemits⟩ := addEntry_spec h₁ hset hroom hc hd
    rw [hmem₁] at hbody
    refine ⟨s', ?_, hrep, hbody.mono (Nat.le_refl _) (by omega), fun visits =>
      (hemits₁ _ _ _).trans (hemits visits _)⟩
    rw [if_pos (by simpa using hfree)]
    exact hrun
  · rw [if_neg hfree] at hmake
    -- no room for the record: the last entry is given up for it
    rcases List.eq_nil_or_concat rest with rfl | ⟨rest₁, y, rfl⟩
    · cases hmake
    rw [List.concat_eq_append] at *
    rw [List.getLast?_concat, List.dropLast_concat] at hmake
    obtain ⟨dir₁, hevict, heq⟩ := Option.map_eq_some_iff.1 hmake
    rw [Prod.mk.injEq] at heq
    obtain ⟨rfl, rfl⟩ := heq
    have hle := Index.remove_noFuller hevict
    obtain ⟨s₃, hdrop, h₃, hbody₃, hemits₃⟩ :=
      cellBodyDropBelowTop_spec h₁ (hlive y (by simp)) hevict hcpos hdpos
    obtain ⟨s₄, hspace₃, hmem₄, hemits₄⟩ := freeSpace_spec h₃
    have h₄ : OpenRep s₄.mem slab next below gap prev rest₁ c d dir₁ := by rwa [hmem₄]
    obtain ⟨s', hadd, hrep, hbody, hemits⟩ := addEntry_spec h₄ hset
      hroom hc hd
    rw [hmem₄] at hbody
    rw [hmem₁] at hbody₃
    refine ⟨s', ?_, hrep, ?_, fun visits => ?_⟩
    · rw [if_neg (by simpa using hfree), bind_ok hdrop, bind_ok hspace₃, always,
        check_bind_true _ (decide_eq_true ?_)]
      · exact hadd
      · rw [bodyRoom]
        simp only [sizeofCellDirEntry]
        omega
    · exact (hbody₃.mono (Nat.le_refl _) (by omega)).trans (hbody.mono (Nat.le_refl _) (by omega))
    · exact (((hemits₁ _ _ _).trans (hemits₃ visits _)).trans (hemits₄ visits _ _)).trans
        (hemits visits _)

/-- Where the index does not have the entry below the top, giving it up fails an assertion. -/
theorem cellBodyAddDirEntry_missing (ptr : Nat) (e : CellDirEntry) (size : Nat)
    (h : OpenRep s.mem slab next below gap prev rest c d dir)
    (hfull : bodyRoom (span below + gap + span rest) dir < 36)
    (hptr : slab + (span below + gap + span rest) = ptr + (prevOf prev rest + 36)) (hlo : slab ≤ ptr)
    (hlive : cellBodyEntryFree s.mem ptr = false)
    (hmissing : dir.remove (loadChecksum s.mem ptr) = none) :
    ∃ s', cellBodyAddDirEntry (cellAt slab) (slab + 1019892) e size s = .error .always s' ∧
      ∀ visits t o, Emits (AddEvent slab visits t o) s s' := by
  obtain ⟨s₁, hspace, hmem₁, hemits₁⟩ := freeSpace_spec h
  have hroom := h.room
  have htop := h.top
  have hheader := h.header
  rw [← hmem₁] at hheader
  have hoffset : slab + sub32 (span below + gap + span rest) (prevOf prev rest + 36) = ptr := by
    rw [sub32_of_le (by omega) (by omega)]
    omega
  refine ⟨s₁, ?_, hemits₁⟩
  rw [cellBodyAddDirEntry, bind_ok hspace, if_neg (by simpa using hfull)]
  refine bind_error ?_ _
  simp only [cellBodyDropBelowTop, cellAt, load_bind, hmem₁, h.topOffset, sizeofCellBodyEntry]
  rw [show entryBits s.mem _ = _ from htop]
  simp only [hoffset, hlive, Bool.not_false]
  rw [always, check_bind_true _ rfl]
  exact bind_error (cellHeaderRemove_abort hheader (by rwa [hmem₁])) _

/-- Where no room can be made, an assertion fails. The entry `x` under insertion, whose index entry
is still to come, lies below the top if `rest` is empty. -/
theorem cellBodyAddDirEntry_abort {x : Entry} {p : Nat} (e : CellDirEntry) (size : Nat)
    (h : OpenRep s.mem slab next below gap prev rest c d dir) (hlive : ∀ y ∈ rest, y.free = false)
    (hmake : makeRoom (span below + gap + span rest) dir rest = none)
    (hx : rest = [] → EntryAt s.mem (slab + span below) p x ∧ x.free = false ∧ x.size = prev ∧
      x.span = gap ∧ dir.remove x.checksum = none) :
    ∃ s', cellBodyAddDirEntry (cellAt slab) (slab + 1019892) e size s = .error .always s' ∧
      ∀ visits t o, Emits (AddEvent slab visits t o) s s' := by
  obtain ⟨hfull, rfl | ⟨rest', y, rfl, hmissing⟩⟩ := makeRoom_none hmake
  · obtain ⟨hentry, hfree, hsize, hspan, hmissing⟩ := hx rfl
    rw [Entry.span] at hspan
    refine cellBodyAddDirEntry_missing (slab + span below) e size h hfull ?_ (by omega)
      (by rw [hentry.free, hfree]) (by rw [(hentry.chunk hfree).1]; exact hmissing)
    rw [prevOf, span_nil]
    omega
  · obtain ⟨-, hentry, -⟩ := seg_append.1 h.restSeg
    have hfree := hlive y (by simp)
    refine cellBodyAddDirEntry_missing (slab + (span below + gap) + span rest') e size h hfull ?_
      (by omega) (by rw [hentry.free, hfree]) (by rw [(hentry.chunk hfree).1]; exact hmissing)
    rw [prevOf_append, prevOf, prevOf, span_append, span_cons, span_nil, Entry.span]
    omega

/-! ## Merging -/

/-- One round of the merge loop: it moves to the next entry, which is not the top, and evicts it. -/
theorem cellBodyMergeLoop_round {visits : Nat → Prop} {x : Entry} {xs : List Entry}
    {required ptr free : Nat} (fuel : Nat)
    (h : OpenRep s.mem slab next below gap prev (x :: xs) c d dir)
    (hptr : slab + (span below + gap) = ptr + ((entryBits s.mem ptr).size + 36))
    (hlt : free < required) (hvisit : visits (slab + (span below + gap))) :
    ∃ s₁, s₁.mem = s.mem ∧ (∀ t o, Emits (AddEvent slab visits t o) s s₁) ∧
      cellBodyMergeLoop (cellAt slab) required (fuel + 1) ptr free s =
        (cellBodyEvict (cellAt slab) (slab + (span below + gap)) >>= fun _ =>
          load (entryBits · (slab + (span below + gap))) >>= fun bits =>
            cellBodyMergeLoop (cellAt slab) required fuel (slab + (span below + gap))
              (u32 (free + (bits.size + 36)))) s₁ := by
  refine ⟨s.emit (.mark (.visit (slab + (span below + gap)))), Machine.mem_emit_mark _ _,
    fun _ _ => visit_emits s hvisit, ?_⟩
  rw [cellBodyMergeLoop, if_pos hlt, load_bind]
  simp only [sizeofCellBodyEntry]
  rw [← hptr, emit_bind, load_bind, Machine.mem_emit_mark, h.restSeg.1.top, if_neg Bool.false_ne_true]

/-- A round whose eviction succeeds: the loop goes on from the entry that was evicted, which has joined
the gap. -/
theorem cellBodyMergeLoop_evict {visits : Nat → Prop} {e : Entry} {es : List Entry}
    {required ptr free : Nat} {dir₁ : Dir} (fuel : Nat)
    (h : OpenRep s.mem slab next below gap prev (e :: es) c d dir)
    (hptr : slab + (span below + gap) = ptr + ((entryBits s.mem ptr).size + 36))
    (hlt : free < required) (hevict : removeAll dir [e] = some dir₁)
    (hc : 0 < c + liveCount es) (hd : 0 < d + liveBytes es)
    (hvisits : ∀ xs ys, e :: es = xs ++ ys → visits (slab + (span below + gap + span xs)))
    (hsmall : free + span (e :: es) < 2 ^ 32) :
    ∃ s₂, OpenRep s₂.mem slab next below (gap + e.span) e.size es c d dir₁ ∧
      s.mem.Agree s₂.mem slab (slab + (span below + gap + span (e :: es))) ∧
      (∀ t o, Emits (AddEvent slab visits t o) s s₂) ∧
      slab + (span below + (gap + e.span)) = slab + (span below + gap) +
        ((entryBits s₂.mem (slab + (span below + gap))).size + 36) ∧
      (∀ xs ys, es = xs ++ ys → visits (slab + (span below + (gap + e.span) + span xs))) ∧
      cellBodyMergeLoop (cellAt slab) required (fuel + 1) ptr free s =
        cellBodyMergeLoop (cellAt slab) required fuel (slab + (span below + gap)) (free + e.span)
          s₂ := by
  have hvisit := hvisits [] (e :: es) rfl
  simp only [span_nil, Nat.add_zero] at hvisit
  have hentry := h.restSeg.1
  have hroom := h.room
  rw [span_cons] at hroom hsmall
  obtain ⟨s₁, hmem₁, hemits₁, hround⟩ := cellBodyMergeLoop_round fuel h hptr hlt hvisit
  have h₁ : OpenRep s₁.mem slab next below gap prev (e :: es) c d dir := by rwa [hmem₁]
  obtain ⟨s₂, hrun₂, h₂, hbody₂, hemits₂⟩ :=
    cellBodyEvict_spec h₁ hevict (removeAll_noFuller hevict).1 hc hd
  have hentry₂ : EntryAt s₂.mem (slab + (span below + gap)) prev e :=
    (hmem₁ ▸ hentry).congr (hbody₂.mono (by omega) (by omega))
  have hfree : u32 (free + (e.size + 36)) = free + e.span := u32_of_lt (by
    rw [Entry.span] at hsmall
    omega)
  refine ⟨s₂, h₂, ?_, fun t o => (hemits₁ t o).trans (hemits₂ visits t o), ?_, ?_, ?_⟩
  · rw [← hmem₁, span_cons]
    exact hbody₂.mono (Nat.le_refl _) (by omega)
  · rw [hentry₂.bits]
    simp only [Entry.span]
    omega
  · intro xs ys hes
    have hnext := hvisits (e :: xs) ys (by rw [hes]; rfl)
    rwa [span_cons, show span below + gap + (e.span + span xs) =
      span below + (gap + e.span) + span xs by omega] at hnext
  · rw [hround, bind_ok hrun₂, load_bind, hentry₂.bits]
    simp only [hfree]

theorem gather_live_le (required free : Nat) (es : List Entry) :
    liveCount (gather required free es).2.2 ≤ liveCount es ∧
      liveBytes (gather required free es).2.2 ≤ liveBytes es := by
  have hsplit := gather_split required free es
  have hcount := congrArg liveCount hsplit
  have hbytes := congrArg liveBytes hsplit
  rw [liveCount_append] at hcount
  rw [liveBytes_append] at hbytes
  omega

/-- The merge loop takes the entries that `gather` takes. -/
theorem cellBodyMergeLoop_spec {visits : Nat → Prop} (required fuel ptr free : Nat)
    {dir' : Dir} (h : OpenRep s.mem slab next below gap prev rest c d dir)
    (hptr : slab + (span below + gap) = ptr + ((entryBits s.mem ptr).size + 36)) (hlo : slab ≤ ptr)
    (hremove : removeAll dir (gather required free rest).2.1 = some dir')
    (hc : 0 < c + liveCount (gather required free rest).2.2)
    (hd : 0 < d + liveBytes (gather required free rest).2.2)
    (hvisits : ∀ xs ys, rest = xs ++ ys → visits (slab + (span below + gap + span xs)))
    (hfuel : 0 < fuel ∧ required < free + fuel) (hsmall : free + span rest < 2 ^ 32) :
    ∃ s', OpenRep s'.mem slab next below (gap + span (gather required free rest).2.1)
        (prevOf prev (gather required free rest).2.1) (gather required free rest).2.2 c d dir' ∧
      s.mem.Agree s'.mem slab (slab + (span below + gap + span rest)) ∧
      (∀ t o, Emits (AddEvent slab visits t o) s s') ∧
      ((gather required free rest).1 < required ∧
        cellBodyMergeLoop (cellAt slab) required fuel ptr free s = .ok none s' ∨
      ∃ last, required ≤ (gather required free rest).1 ∧
        slab + (span below + (gap + span (gather required free rest).2.1)) =
          last + ((entryBits s'.mem last).size + 36) ∧
        cellBodyMergeLoop (cellAt slab) required fuel ptr free s =
          .ok (some (last, (gather required free rest).1)) s') := by
  induction rest generalizing s fuel ptr free gap prev dir with
  | nil =>
      obtain ⟨fuel, rfl⟩ := Nat.exists_eq_succ_of_ne_zero (Nat.ne_of_gt hfuel.1)
      rw [gather] at hremove ⊢
      rw [removeAll, Option.some.injEq] at hremove
      subst hremove
      rw [cellBodyMergeLoop]
      by_cases hlt : free < required
      · -- the next entry is the top: the loop gives up
        have hvisit := hvisits [] [] rfl
        have htop := h.top.top
        simp only [span_nil, Nat.add_zero] at hvisit htop
        refine ⟨s.emit (.mark (.visit (slab + (span below + gap)))), ?_, Mem.Agree.refl _ _ _,
          fun _ _ => visit_emits s hvisit, Or.inl ⟨hlt, ?_⟩⟩
        · rw [Machine.mem_emit_mark]
          exact h
        · rw [if_pos hlt, load_bind]
          simp only [sizeofCellBodyEntry]
          rw [← hptr, emit_bind, load_bind, Machine.mem_emit_mark, htop]
          rfl
      · exact ⟨s, h, Mem.Agree.refl _ _ _, fun _ _ => Emits.refl _ s,
          Or.inr ⟨ptr, Nat.le_of_not_lt hlt, hptr, by rw [if_neg hlt, pure_run]⟩⟩
  | cons e es ih =>
      obtain ⟨fuel, rfl⟩ := Nat.exists_eq_succ_of_ne_zero (Nat.ne_of_gt hfuel.1)
      rw [gather] at hremove hc hd ⊢
      by_cases hlt : free < required
      · simp only [if_pos hlt] at hremove hc hd ⊢
        rw [show e :: (gather required (free + e.span) es).2.1 =
          [e] ++ (gather required (free + e.span) es).2.1 from rfl, removeAll_append] at hremove
        obtain ⟨dir₁, hevict, hremove⟩ := Option.bind_eq_some_iff.1 hremove
        have hlive := gather_live_le required (free + e.span) es
        obtain ⟨s₂, h₂, hbody₂, hemits₂, hptr₂, hvisits₂, hround⟩ :=
          cellBodyMergeLoop_evict fuel h hptr hlt hevict (by omega) (by omega) hvisits hsmall
        rw [span_cons] at hsmall hbody₂
        have hespan : e.span = e.size + 36 := rfl
        obtain ⟨s₃, h₃, hbody₃, hemits₃, hrun₃⟩ := ih fuel (slab + (span below + gap)) (free + e.span)
          h₂ hptr₂ (by omega) hremove hc hd hvisits₂ (by omega) (by omega)
        -- the first round, and the others from the gap that it has widened
        rw [span_cons, span_cons, prevOf, ← Nat.add_assoc gap, hround]
        refine ⟨s₃, h₃, ?_, fun t o => (hemits₂ t o).trans (hemits₃ t o), hrun₃⟩
        exact hbody₂.trans (hbody₃.mono (Nat.le_refl _) (by omega))
      · simp only [if_neg hlt] at hremove hc hd ⊢
        rw [removeAll, Option.some.injEq] at hremove
        subst hremove
        exact ⟨s, h, Mem.Agree.refl _ _ _, fun _ _ => Emits.refl _ s,
          Or.inr ⟨ptr, Nat.le_of_not_lt hlt, hptr, by rw [cellBodyMergeLoop, if_neg hlt, pure_run]⟩⟩

/-- It aborts where the index does not have one of them. -/
theorem cellBodyMergeLoop_abort {visits : Nat → Prop} (required fuel ptr free : Nat)
    (h : OpenRep s.mem slab next below gap prev rest c d dir)
    (hptr : slab + (span below + gap) = ptr + ((entryBits s.mem ptr).size + 36)) (hlo : slab ≤ ptr)
    (hremove : removeAll dir (gather required free rest).2.1 = none)
    (hc : 0 < c + liveCount (gather required free rest).2.2)
    (hd : 0 < d + liveBytes (gather required free rest).2.2)
    (hvisits : ∀ xs ys, rest = xs ++ ys → visits (slab + (span below + gap + span xs)))
    (hfuel : 0 < fuel ∧ required < free + fuel) (hsmall : free + span rest < 2 ^ 32) :
    ∃ s', cellBodyMergeLoop (cellAt slab) required fuel ptr free s = .error .always s' ∧
      ∀ t o, Emits (AddEvent slab visits t o) s s' := by
  induction rest generalizing s fuel ptr free gap prev dir with
  | nil => cases hremove
  | cons e es ih =>
      obtain ⟨fuel, rfl⟩ := Nat.exists_eq_succ_of_ne_zero (Nat.ne_of_gt hfuel.1)
      rw [gather] at hremove hc hd
      by_cases hlt : free < required
      · simp only [if_pos hlt] at hremove hc hd
        rw [show e :: (gather required (free + e.span) es).2.1 =
          [e] ++ (gather required (free + e.span) es).2.1 from rfl, removeAll_append] at hremove
        cases hevict : removeAll dir [e] with
        | none =>
            -- the entry is not in the index
            have hvisit := hvisits [] (e :: es) rfl
            simp only [span_nil, Nat.add_zero] at hvisit
            obtain ⟨s₁, hmem₁, hemits₁, hround⟩ := cellBodyMergeLoop_round fuel h hptr hlt hvisit
            rw [← hmem₁] at h
            refine ⟨s₁, ?_, hemits₁⟩
            rw [hround, bind_error (cellBodyEvict_abort h hevict)]
        | some dir₁ =>
            rw [hevict, Option.bind_some] at hremove
            have hlive := gather_live_le required (free + e.span) es
            obtain ⟨s₂, h₂, -, hemits₂, hptr₂, hvisits₂, hround⟩ :=
              cellBodyMergeLoop_evict fuel h hptr hlt hevict (by omega) (by omega) hvisits hsmall
            rw [span_cons] at hsmall
            have hespan : e.span = e.size + 36 := rfl
            obtain ⟨s₃, hrun₃, hemits₃⟩ := ih fuel (slab + (span below + gap)) (free + e.span) h₂
              hptr₂ (by omega) hremove hc hd hvisits₂ (by omega) (by omega)
            exact ⟨s₃, hround.trans hrun₃, fun t o => (hemits₂ t o).trans (hemits₃ t o)⟩
      · rw [if_neg hlt] at hremove
        cases hremove

/-! ## Insertion at the top -/

/-- The top entry turned into a chunk. -/
def chunked (s : Store) (ptr : Nat) (c : Checksum) (buffer : List UInt8) : Store :=
  ((assigned (assigned (assigned s .freeSpace ptr 0) .topEntry ptr 0) .size ptr
    buffer.length).storeBytes .body ptr c.bytes).storeBytes .body (ptr + 36) buffer

/-- The three fields of the entry, before its checksum and its bytes are written. -/
theorem chunked_fields (s : Store) (ptr : Nat) (c : Checksum) (buffer : List UInt8) : ∃ s₁ : Store,
    chunked s ptr c buffer =
      (s₁.storeBytes .body ptr c.bytes).storeBytes .body (ptr + 36) buffer ∧
    entryBits s₁.mem ptr = ⟨0, 0, buffer.length % 2 ^ 15, (entryBits s.mem ptr).previousSize⟩ ∧
    (∀ {lo hi}, hi ≤ ptr + 32 ∨ ptr + 36 ≤ lo → s.mem.Agree s₁.mem lo hi) ∧
    Emits (Event.StoreIn .body (ptr + 32) (ptr + 36)) s s₁ := by
  refine ⟨_, rfl, ?_, ?_, ?_⟩
  · rw [entryBits_assigned, entryBits_assigned, entryBits_assigned]
    rfl
  · intro lo hi hd
    exact ((assigned_agree _ _ _ _ hd).trans (assigned_agree _ _ _ _ hd)).trans
      (assigned_agree _ _ _ _ hd)
  · have hle : ptr + 32 ≤ ptr + 32 ∧ ptr + 36 ≤ ptr + 36 := ⟨Nat.le_refl _, Nat.le_refl _⟩
    exact ((assigned_emits s hle.1 hle.2).trans (assigned_emits _ hle.1 hle.2)).trans
      (assigned_emits _ hle.1 hle.2)

theorem chunked_agree (s : Store) (ptr : Nat) (c : Checksum) (buffer : List UInt8) {lo hi : Nat}
    (hd : hi ≤ ptr ∨ ptr + 36 + buffer.length ≤ lo) :
    s.mem.Agree (chunked s ptr c buffer).mem lo hi := by
  have hclen := c.length_eq
  obtain ⟨s₁, hs₁, -, hfields, -⟩ := chunked_fields s ptr c buffer
  rw [hs₁]
  exact ((hfields (by omega)).trans (Machine.storeBytes_agree _ _ _ _ (by omega))).trans
    (Machine.storeBytes_agree _ _ _ _ (by omega))

theorem chunked_bits (s : Store) (ptr : Nat) (c : Checksum) (buffer : List UInt8) :
    entryBits (chunked s ptr c buffer).mem ptr =
      ⟨0, 0, buffer.length % 2 ^ 15, (entryBits s.mem ptr).previousSize⟩ := by
  have hclen := c.length_eq
  obtain ⟨s₁, hs₁, hbits, -⟩ := chunked_fields s ptr c buffer
  rw [hs₁, ← hbits]
  exact entryBits_congr ((Machine.storeBytes_agree _ _ _ _ (by omega)).trans
    (Machine.storeBytes_agree _ _ _ _ (by omega)))

theorem chunked_entryAt (s : Store) (ptr : Nat) {e : Entry} (hlive : e.free = false)
    (hsize : e.size < 32768) (hlen : e.data.length = e.size) :
    EntryAt (chunked s ptr e.checksum e.data).mem ptr (entryBits s.mem ptr).previousSize e := by
  have hclen := e.checksum.length_eq
  obtain ⟨s₁, hs₁, -⟩ := chunked_fields s ptr e.checksum e.data
  refine ⟨?_, fun _ => ⟨?_, ?_⟩⟩
  · have hword : e.size % 2 ^ 15 = e.size := Nat.mod_eq_of_lt hsize
    rw [chunked_bits, hlive, hlen, hword]
    rfl
  · rw [hs₁, loadChecksum_congr (Machine.storeBytes_agree _ _ _ _ (by omega)),
      Machine.mem_storeBytes, loadChecksum_write]
  · rw [hs₁, Machine.mem_storeBytes, ← hlen, Mem.read_write_self]

theorem chunked_emits (s : Store) (ptr : Nat) (c : Checksum) (buffer : List UInt8) :
    Emits (Event.StoreIn .body ptr (ptr + (buffer.length + 36))) s (chunked s ptr c buffer) := by
  have hclen := c.length_eq
  obtain ⟨s₁, hs₁, -, -, hfields⟩ := chunked_fields s ptr c buffer
  rw [hs₁]
  exact ((hfields.mono fun _ he => he.mono (by omega) (by omega)).trans
    (Emits.storeBytes_in s₁ (by omega) (by omega))).trans
    (Emits.storeBytes_in _ (by omega) (by omega))

/-- The top at `t`, behind an entry of `size`, from which the next insertion starts. -/
def raised (s : Store) (slab t size : Nat) : Store :=
  ((assigned (topped s (slab + t)) .previousSize (slab + t) size).store32 .bodyOffsets
    (slab + 1019892) t).store32 .bodyOffsets (slab + 1019892 + 4) t

section

variable (s : Store) (slab : Nat) {t size lo hi : Nat}

theorem raised_agree (htop : hi ≤ slab + t + 32 ∨ slab + t + 36 ≤ lo)
    (hoffsets : hi ≤ slab + 1019892 ∨ slab + 1019900 ≤ lo) :
    s.mem.Agree (raised s slab t size).mem lo hi := by
  unfold raised
  exact (((topped_agree s _ htop).trans (assigned_agree _ _ _ _ htop)).trans
    (Machine.store32_agree _ _ _ _ (by omega))).trans (Machine.store32_agree _ _ _ _ (by omega))

theorem raised_topAt (ht : t + 36 ≤ 1019892) (hsize : size < 32768) :
    TopAt (raised s slab t size).mem (slab + t) size := by
  have htop : TopAt (assigned (topped s (slab + t)) .previousSize (slab + t) size).mem (slab + t)
      size := by
    have htopped := topped_topAt s (slab + t)
    rw [TopAt] at htopped ⊢
    rw [entryBits_assigned, htopped]
    simp only [EntryBits.assign, Nat.mod_eq_of_lt hsize]
  exact htop.congr ((Machine.store32_agree _ _ _ _ (by omega)).trans
    (Machine.store32_agree _ _ _ _ (by omega)))

theorem raised_topOffset (ht : t < 2 ^ 32) :
    topEntryOffset (raised s slab t size).mem (slab + 1019892) = t := by
  unfold raised
  rw [topEntryOffset, (Machine.store32_agree _ _ _ _ (by omega)).load32, Machine.load32_store32,
    Nat.mod_eq_of_lt ht]

theorem raised_nextOffset (ht : t < 2 ^ 32) :
    nextEntryOffset (raised s slab t size).mem (slab + 1019892) = t := by
  unfold raised
  rw [nextEntryOffset, Machine.load32_store32, Nat.mod_eq_of_lt ht]

theorem raised_emits {visits : Nat → Prop} {o : Nat} :
    Emits (AddEvent slab visits t o) s (raised s slab t size) := by
  unfold raised
  have hnewTop : Emits (Event.StoreIn .body (slab + t) (slab + t + 36)) s
      (assigned (topped s (slab + t)) .previousSize (slab + t) size) :=
    (topped_emits s _).trans (assigned_emits _ (by omega) (by omega))
  have hoffsets : ∀ s₁ : Store, Emits (Event.StoreIn .bodyOffsets (slab + 1019892) (slab + 1019900)) s₁
      ((s₁.store32 .bodyOffsets (slab + 1019892) t).store32 .bodyOffsets (slab + 1019892 + 4) t) :=
    fun s₁ => (Emits.store32_in s₁ (by omega) (by omega)).trans
      (Emits.store32_in _ (by omega) (by omega))
  exact (hnewTop.mono fun _ he => AddEvent.of_body he (by omega) (by omega)).trans
    ((hoffsets _).mono fun _ he => Or.inr (Or.inr (Or.inl he)))

end

theorem cellBodyAddTop_full {e : Entry}
    (h : OpenRep s.mem slab next below 0 (prevOf 0 below) [] c d dir) (hlen : e.data.length = e.size)
    (hsize : e.size ≤ 32768) (hfull : bodyRoom (span below) dir < e.size + 72) :
    ∃ s', cellBodyAddTop (slab + 1019892) (cellAt slab) e.checksum e.data s = .ok false s' ∧
      s'.mem = s.mem ∧ ∀ visits t o, Emits (AddEvent slab visits t o) s s' := by
  obtain ⟨s', hspace, hmem, hemits⟩ := freeSpace_spec h
  have hrequired : u32 (e.data.length + 36 + 36) = e.size + 72 := by
    rw [hlen, u32_of_lt (by omega)]
  simp only [span_nil, Nat.add_zero] at hspace
  refine ⟨s', ?_, hmem, hemits⟩
  simp only [cellBodyAddTop, sizeofCellBodyEntry, sizeofCellDirEntry, hrequired]
  rw [bind_ok hspace, if_pos hfull, pure_run]

/-- What `cell_body_add_top` stores when the buffer fits: the chunk, its record, and the new top. -/
theorem cellBodyAddTop_run (checksum : Checksum) (buffer : List UInt8)
    (h : OpenRep s.mem slab next below 0 (prevOf 0 below) [] c d dir)
    (hfits : buffer.length + 72 ≤ bodyRoom (span below) dir) :
    ∃ s₁ s₃, s₁.mem = s.mem ∧ (∀ visits t o, Emits (AddEvent slab visits t o) s s₁) ∧
      HeaderRep s₃.mem (slab + 1019872) (c + 1) (d + buffer.length)
        (dir.add (cellDirEntrySet checksum (span below))) ∧
      Emits (HeaderStore (slab + 1019872) (slab + 1019872 -
        36 * (dir.add (cellDirEntrySet checksum (span below))).stack.length) (slab + 1019872))
        (chunked s₁ (slab + span below) checksum buffer) s₃ ∧
      cellBodyAddTop (slab + 1019892) (cellAt slab) checksum buffer s =
        .ok true (raised s₃ slab (span below + (buffer.length + 36)) buffer.length) := by
  obtain ⟨s₁, hspace, hmem₁, hemits₁⟩ := freeSpace_spec h
  have htopOffset := h.topOffset
  have hcle := h.count_le
  have hdle := h.bytes_le
  have hover := Dir.add_over_length_le dir (cellDirEntrySet checksum (span below))
  rw [bodyRoom] at hfits
  simp only [span_nil, Nat.add_zero] at hspace htopOffset
  have hrequired : u32 (buffer.length + 36 + 36) = buffer.length + 72 := u32_of_lt (by omega)
  obtain ⟨s₂, hs₂⟩ : ∃ s₂, s₂ = chunked s₁ (slab + span below) checksum buffer := ⟨_, rfl⟩
  have hchunk : ∀ {lo hi}, slab + span below + 36 + buffer.length ≤ lo →
      s.mem.Agree s₂.mem lo hi := fun hlo => by
    rw [hs₂, ← hmem₁]
    exact chunked_agree _ _ _ _ (Or.inr hlo)
  have htopOffset₂ : topEntryOffset s₂.mem (slab + 1019892) = span below := by
    rw [topEntryOffset, (hchunk (by omega)).load32]
    exact htopOffset
  obtain ⟨s₃, hadd, hheader, hemits₃⟩ := cellHeaderAdd_spec buffer.length
    (h.header.congr (hchunk (by omega)) (hchunk (by omega)) (hchunk (by omega)))
    (e := cellDirEntrySet checksum (span below)) rfl (by omega)
    (by omega) (by simp only [liveCount]; omega) (by simp only [liveBytes]; omega)
  obtain ⟨-, hoffsets₃⟩ := headerStore_agree (k := dir.stack.length + 1) hemits₃ (by omega)
    (by omega)
  -- the new top
  obtain ⟨t, ht⟩ : ∃ t, t = span below + (buffer.length + 36) := ⟨_, rfl⟩
  have hptr : slab + span below + 36 + buffer.length = slab + t := by omega
  have hnew : u32 (span below + (buffer.length + 36)) = t := by
    rw [ht, u32_of_lt (by omega)]
  obtain ⟨s₄, hs₄⟩ : ∃ s₄, s₄ = assigned (topped s₃ (slab + t)) .previousSize (slab + t)
    buffer.length := ⟨_, rfl⟩
  have hframe₄ : s₃.mem.Agree s₄.mem (slab + 1019892) (slab + 1019896) := by
    rw [hs₄]
    exact (topped_agree s₃ _ (by omega)).trans (assigned_agree _ _ _ _ (by omega))
  have htopOffset₄ : topEntryOffset s₄.mem (slab + 1019892) = span below := by
    rw [topEntryOffset, ((hoffsets₃.mono (by omega) (by omega)).trans hframe₄).load32]
    exact htopOffset₂
  have htopOffset₅ : topEntryOffset (s₄.store32 .bodyOffsets (slab + 1019892) t).mem
      (slab + 1019892) = t := by
    rw [topEntryOffset, Machine.load32_store32]
    omega
  simp only [liveCount, liveBytes, Nat.add_zero] at hheader
  refine ⟨s₁, s₃, hmem₁, hemits₁, hheader, hs₂ ▸ hemits₃, ?_⟩
  rw [cellBodyAddTop]
  simp only [sizeofCellBodyEntry, sizeofCellDirEntry, hrequired]
  rw [bind_ok hspace, if_neg (by rw [bodyRoom]; omega), load_bind, hmem₁, htopOffset]
  simp only [cellAt]
  rw [assignField_bind, assignField_bind, assignField_bind, storeBytes_bind, storeBytes_bind,
    show Machine.storeBytes _ .body (slab + span below + 36) buffer = s₂ from hs₂.symm, load_bind,
    htopOffset₂, bind_ok hadd, hptr, cellBodySetTop_bind, assignField_bind, ← hs₄, load_bind,
    htopOffset₄, hnew, store32_bind, load_bind, htopOffset₅, store32_bind, raised, ← ht, ← hs₄]
  rfl

/-- The size that is stored is the length of the buffer modulo 2^15. -/
theorem cellBodyAddTop_size (checksum : Checksum) (buffer : List UInt8)
    (h : OpenRep s.mem slab next below 0 (prevOf 0 below) [] c d dir)
    (hfits : buffer.length + 72 ≤ bodyRoom (span below) dir) :
    ∃ s', cellBodyAddTop (slab + 1019892) (cellAt slab) checksum buffer s = .ok true s' ∧
      entryBits s'.mem (slab + span below) = ⟨0, 0, buffer.length % 2 ^ 15, prevOf 0 below⟩ := by
  obtain ⟨s₁, s₃, hmem₁, -, -, hemits₃, hrun⟩ := cellBodyAddTop_run checksum buffer h hfits
  have htop := h.top
  have hover := Dir.add_over_length_le dir (cellDirEntrySet checksum (span below))
  simp only [span_nil, Nat.add_zero] at htop
  rw [bodyRoom] at hfits
  obtain ⟨hbody₃, -⟩ := headerStore_agree (k := dir.stack.length + 1) hemits₃ (by omega) (by omega)
  refine ⟨_, hrun, ?_⟩
  rw [entryBits_congr ((hbody₃.mono (by omega) (by omega)).trans
    (raised_agree s₃ slab (by omega) (by omega))), chunked_bits, hmem₁,
    show entryBits s.mem _ = _ from htop]
  rfl

theorem cellBodyAddTop_fits {e : Entry}
    (h : OpenRep s.mem slab next below 0 (prevOf 0 below) [] c d dir) (hlive : e.free = false)
    (hlen : e.data.length = e.size) (hpos : 1 ≤ e.size) (hsize : e.size < 32768)
    (hfits : e.size + 72 ≤ bodyRoom (span below) dir) :
    ∃ s', cellBodyAddTop (slab + 1019892) (cellAt slab) e.checksum e.data s = .ok true s' ∧
      OpenRep s'.mem slab (span below + e.span) (below ++ [e]) 0 e.size [] (c + 1) (d + e.size)
        (dir.add (cellDirEntrySet e.checksum (span below))) ∧
      ∀ visits, Emits (AddEvent slab visits (span below + e.span)
        (dir.add (cellDirEntrySet e.checksum (span below))).stack.length) s s' := by
  obtain ⟨s₁, s₃, hmem₁, hemits₁, hheader, hemits₃, hrun⟩ :=
    cellBodyAddTop_run e.checksum e.data h (hlen ▸ hfits)
  have htop := h.top
  have hcle := h.count_le
  have hdle := h.bytes_le
  have hover := Dir.add_over_length_le dir (cellDirEntrySet e.checksum (span below))
  simp only [span_nil, Nat.add_zero] at htop hcle hdle
  rw [bodyRoom] at hfits
  rw [hlen] at hheader hrun
  rw [show e.size + 36 = e.span from rfl] at hrun
  have hspan : span (below ++ [e]) = span below + e.span := by
    rw [span_append, span_cons, span_nil, Nat.add_zero]
  have hespan : e.span = e.size + 36 := rfl
  have hchunk : EntryAt (chunked s₁ (slab + span below) e.checksum e.data).mem (slab + span below)
      (prevOf 0 below) e := by
    have hentry := chunked_entryAt s₁ (slab + span below) hlive hsize hlen
    rwa [hmem₁, show entryBits s.mem _ = _ from htop] at hentry
  obtain ⟨hbody₃, -⟩ := headerStore_agree (k := dir.stack.length + 1) hemits₃ (by omega) (by omega)
  have hraised : ∀ {lo hi}, hi ≤ slab + (span below + e.span) + 32 ∨
      slab + (span below + e.span) + 36 ≤ lo → hi ≤ slab + 1019892 ∨ slab + 1019900 ≤ lo →
      s₃.mem.Agree (raised s₃ slab (span below + e.span) e.size).mem lo hi := raised_agree s₃ slab
  refine ⟨_, hrun, ⟨?_, trivial, ?_, ?_, ?_, ?_, ?_, ?_, ?_⟩, fun visits => ?_⟩
  · rw [seg_append]
    refine ⟨h.belowSeg.congr ?_, hchunk.congr ?_, trivial⟩
    · rw [← hmem₁]
      exact ((chunked_agree _ _ _ _ (by omega)).trans (hbody₃.mono (by omega) (by omega))).trans
        (hraised (by omega) (by omega))
    · exact (hbody₃.mono (by omega) (by omega)).trans (hraised (by omega) (by omega))
  · simp only [span_nil, Nat.add_zero, prevOf, hspan]
    exact raised_topAt s₃ slab (by omega) hsize
  · simp only [span_nil, Nat.add_zero, hspan]
    exact raised_topOffset s₃ slab (by omega)
  · exact raised_nextOffset s₃ slab (by omega)
  · simp only [liveCount, liveBytes, Nat.add_zero]
    exact hheader.congr (hraised (by omega) (by omega)) (hraised (by omega) (by omega))
      (hraised (by omega) (by omega))
  · rw [hspan, span_nil]
    omega
  · rw [hspan]
    omega
  · rw [hspan]
    omega
  · have hstored := chunked_emits s₁ (slab + span below) e.checksum e.data
    exact (((hemits₁ _ _ _).trans
      (hstored.mono fun _ he => AddEvent.of_body he (by omega) (by omega))).trans
      (hemits₃.mono fun _ he => Or.inr (Or.inl (he.mono (Nat.le_refl _) (by omega))))).trans
      (raised_emits s₃ slab)

end

end Theo
