import Theo.Proofs.BodyAdd
import Theo.Ring.Invariant

set_option autoImplicit false

/-! # Overwriting insertion refines the ring

`cell_body_add_offset` computes `Ring.overwrite`, and with it `cell_body_add` computes `Ring.add`:
where the ring's insertion yields a cell, the code leaves the bytes of that cell; where it yields
none, an assertion fails. -/

namespace Theo

open ByteMachine BucketIndex

variable {s : Store} {slab : Nat} {l : Limits} {r r' : Ring} {e x : Entry} {es below rest : List Entry}
  {dir : Dir}

/-- A boundary between entries of the ring, as an address. -/
def Boundary (slab : Nat) (r : Ring) (ptr : Nat) : Prop :=
  ∃ xs ys, r.entries = xs ++ ys ∧ ptr = slab + span xs

/-! ## Running into the top -/

theorem cellRep_push {m : Mem} {c d : Nat} (hlive : e.free = false)
    (h : OpenRep m slab (span below + e.span) (below ++ [e]) 0 e.size [] (c + 1) (d + e.size)
      (dir.add (cellDirEntrySet e.checksum (span below))))
    (hc : c = liveCount below) (hd : d = liveBytes below) :
    CellRep m slab (Ring.push ⟨below, [], dir⟩ e) := by
  refine h.settle [] trivial rfl ?_ ?_ ?_ (by simp) ?_
  · rw [prevOf_append]
    rfl
  · simp [liveCount, hlive, hc]
  · simp [liveBytes, hlive, hd]
  · rw [span_append, span_cons, span_nil, Nat.add_zero]

/-- The top moves down to the cut, whether or not the chunk fits there. -/
theorem cellBodyPushDownTop_start {gap prev : Nat} (c : Checksum) (buffer : List UInt8)
    (h : OpenRep s.mem slab (span below) below gap prev [] (liveCount below) (liveBytes below) dir)
    (hprev : (entryBits s.mem (slab + span below)).previousSize = prevOf 0 below) :
    ∃ s₁, OpenRep s₁.mem slab (span below) below 0 (prevOf 0 below) [] (liveCount below)
        (liveBytes below) dir ∧
      (∀ visits t o, span below ≤ t → Emits (AddEvent slab visits t o) s s₁) ∧
      ∀ {added s'}, cellBodyAddTop (slab + 1019892) (cellAt slab) c buffer s₁ = .ok added s' →
        cellBodyPushDownTop (slab + 1019892) (cellAt slab) (slab + span below) c buffer s =
          .ok () s' := by
  have hroom := h.room
  have hbytes := liveBytes_le_span below
  rw [span_nil, Nat.add_zero] at hroom
  obtain ⟨s₁, hs₁⟩ : ∃ s₁, s₁ = (topped s (slab + span below)).store32 .bodyOffsets
    (slab + 1019892) (span below) := ⟨_, rfl⟩
  have hnext : nextEntryOffset (topped s (slab + span below)).mem (slab + 1019892) = span below := by
    rw [nextEntryOffset, (topped_agree s _ (by omega)).load32]
    exact h.nextOffset
  refine ⟨s₁, ?_, fun visits t o ht => ?_, fun {added s'} hadd => ?_⟩
  · rw [hs₁]
    exact lowered h.belowSeg trivial hprev rfl h.nextOffset h.header
      (by rw [span_nil]; omega) (by omega) (by omega)
  · rw [hs₁]
    exact lowered_emits s visits ht
  · rw [cellBodyPushDownTop, cellBodySetTop_bind, load_bind, hnext, store32_bind, ← hs₁, bind_ok hadd,
      pure_run]

/-- Where the chunk does not fit, it is lost. -/
theorem cellBodyPushDownTop_full {gap prev : Nat} (he : e.IsBuffer)
    (h : OpenRep s.mem slab (span below) below gap prev [] (liveCount below) (liveBytes below) dir)
    (hprev : (entryBits s.mem (slab + span below)).previousSize = prevOf 0 below)
    (hno : ¬ Ring.fits ⟨below, [], dir⟩ e = true) :
    ∃ s', cellBodyPushDownTop (slab + 1019892) (cellAt slab) (slab + span below) e.checksum e.data
        s = .ok () s' ∧ CellRep s'.mem slab ⟨below, [], dir⟩ ∧
      ∀ visits, Emits (AddEvent slab visits (span below) dir.stack.length) s s' := by
  obtain ⟨s₁, h₁, hemits₁, hrun⟩ := cellBodyPushDownTop_start e.checksum e.data h hprev
  have hfull : bodyRoom (span below) dir < e.size + 72 :=
    Nat.lt_of_not_le fun hroom => hno ((Ring.fits_iff _ _).2 hroom)
  obtain ⟨s', hadd, hmem, hemits⟩ := cellBodyAddTop_full h₁ he.data_length he.size_le hfull
  refine ⟨s', hrun hadd, ?_, fun visits => (hemits₁ _ _ _ (Nat.le_refl _)).trans (hemits _ _ _)⟩
  rw [hmem]
  exact h₁.settle [] trivial rfl rfl rfl rfl (by simp) rfl

/-- The chunk goes to the cut if there is room. -/
theorem cellBodyPushDownTop_spec {gap prev : Nat} (he : e.IsChunk l)
    (h : OpenRep s.mem slab (span below) below gap prev [] (liveCount below) (liveBytes below) dir)
    (hprev : (entryBits s.mem (slab + span below)).previousSize = prevOf 0 below)
    (hr' : r' = if Ring.fits ⟨below, [], dir⟩ e then Ring.push ⟨below, [], dir⟩ e
      else ⟨below, [], dir⟩) :
    ∃ s', cellBodyPushDownTop (slab + 1019892) (cellAt slab) (slab + span below) e.checksum e.data
        s = .ok () s' ∧ CellRep s'.mem slab r' ∧
      ∀ visits, Emits (AddEvent slab visits r'.top r'.dir.stack.length) s s' := by
  have hsize := he.size_le
  by_cases hfits : Ring.fits ⟨below, [], dir⟩ e = true
  · rw [if_pos hfits] at hr'
    obtain ⟨s₁, h₁, hemits₁, hrun⟩ := cellBodyPushDownTop_start e.checksum e.data h hprev
    obtain ⟨s', hadd, hrep, hemits⟩ := cellBodyAddTop_fits h₁ he.live he.data_length he.size_pos
      (by omega) ((Ring.fits_iff _ _).1 hfits)
    subst hr'
    refine ⟨s', hrun hadd, cellRep_push he.live hrep rfl rfl, fun visits => ?_⟩
    have htop : (Ring.push ⟨below, [], dir⟩ e).top = span below + e.span := by
      rw [Ring.top, Ring.push_entries, span_append, span_cons, span_nil, Nat.add_zero]
    rw [htop]
    exact (hemits₁ _ _ _ (by omega)).trans (hemits visits)
  · rw [if_neg hfits] at hr'
    obtain ⟨s', hrun, hrep, hemits⟩ := cellBodyPushDownTop_full he.isBuffer h hprev hfits
    subst hr'
    refine ⟨s', hrun, hrep, fun visits => ?_⟩
    have htop : Ring.top ⟨below, [], dir⟩ = span below := by
      rw [Ring.top, Ring.entries, List.append_nil]
    rw [htop]
    exact hemits visits

/-- Either way, whether or not the length fits into its 15 bits. -/
theorem cellBodyPushDownTop_outcome {gap prev : Nat} {s' : Store} (he : e.IsBuffer)
    (h : OpenRep s.mem slab (span below) below gap prev [] (liveCount below) (liveBytes below) dir)
    (hprev : (entryBits s.mem (slab + span below)).previousSize = prevOf 0 below)
    (hrun : cellBodyPushDownTop (slab + 1019892) (cellAt slab) (slab + span below) e.checksum e.data
      s = .ok () s') :
    (Ring.fits ⟨below, [], dir⟩ e = true ∧
        (entryBits s'.mem (slab + span below)).size = e.size % 2 ^ 15) ∨
      (¬ Ring.fits ⟨below, [], dir⟩ e = true ∧ CellRep s'.mem slab ⟨below, [], dir⟩ ∧
        ∀ visits, Emits (AddEvent slab visits (span below) dir.stack.length) s s') := by
  by_cases hfits : Ring.fits ⟨below, [], dir⟩ e = true
  · obtain ⟨s₁, h₁, -, hdown⟩ := cellBodyPushDownTop_start e.checksum e.data h hprev
    obtain ⟨s₂, hadd, hwritten⟩ := cellBodyAddTop_size e.checksum e.data h₁
      (he.data_length ▸ (Ring.fits_iff _ _).1 hfits)
    rw [hdown hadd, EStateM.Result.ok.injEq] at hrun
    rw [← hrun.2, hwritten, he.data_length]
    exact Or.inl ⟨hfits, rfl⟩
  · obtain ⟨s₁, hdown, hrep, hemits⟩ := cellBodyPushDownTop_full he h hprev hfits
    rw [hdown, EStateM.Result.ok.injEq] at hrun
    rw [← hrun.2]
    exact Or.inr ⟨hfits, hrep, hemits⟩

/-! ## Replacing an entry of the same size -/

section InPlace

variable {dir' : Dir} {rest' : List Entry}

/-- The entry at the cut is written anew, in a gap that holds it. -/
theorem cellBodyWriteChunk_gap {next gap prev c d : Nat} (he : e.IsBuffer)
    (h : OpenRep s.mem slab next below gap prev rest c d dir)
    (hbits : (entryBits s.mem (slab + span below)).topEntry = 0)
    (hprev : (entryBits s.mem (slab + span below)).previousSize = prevOf 0 below)
    (hgap : e.span ≤ gap) :
    ∃ s', cellBodyWriteChunk (slab + span below) e.checksum e.data s = .ok () s' ∧
      OpenRep s'.mem slab next below gap prev rest c d dir ∧
      entryBits s'.mem (slab + span below) = ⟨0, 0, e.size % 2 ^ 15, prevOf 0 below⟩ ∧
      (e.size < 32768 → EntryAt s'.mem (slab + span below) (prevOf 0 below) e) ∧
      Emits (Event.StoreIn .body (slab + span below) (slab + span below + e.span)) s s' := by
  obtain ⟨s', hrun, hwritten, hentry, hframe, hemits⟩ :=
    cellBodyWriteChunk_spec s (slab + span below) e he.live he.data_length hbits
  rw [hprev] at hwritten hentry
  exact ⟨s', hrun, h.congr fun hd => hframe (by omega), hwritten, hentry, hemits⟩

theorem cellBodyAddInPlace_spec (hshape : r.Shape l) (he : e.IsChunk l)
    (habove : r.above = x :: es) (hsize : x.size = e.size)
    (hevict : removeAll r.dir [x] = some dir)
    (h : OpenRep s.mem slab r.next r.below x.span x.size es (liveCount r.below) (liveBytes r.below)
      dir)
    (hbits : entryBits s.mem (slab + r.next) = ⟨0, 0, x.size, prevOf 0 r.below⟩)
    (hmake : makeRoom r.top dir es = some (rest', dir')) :
    ∃ s', cellBodyAddInPlace (slab + 1019892) (cellAt slab) (slab + r.next) e.checksum e.data s =
        .ok () s' ∧ CellRep s'.mem slab ⟨r.below ++ [e], rest', dir'.add (r.place e)⟩ ∧
      ∀ visits, Emits (AddEvent slab visits (r.next + x.span + span rest')
        (dir'.add (r.place e)).stack.length) s s' := by
  have habove' : r.above = [x] ++ es := habove
  have hx : x.span = e.span := by rw [Entry.span, Entry.span, hsize]
  have hxle : span [x] < 470000 := by
    have := he.size_le
    simp only [span_cons, span_nil, Entry.span]
    omega
  have hbytes := liveBytes_le_span r.below
  have hlen := he.data_length
  have hpos := he.size_pos
  have htop := Ring.top_eq r habove'
  have hle := removeAll_noFuller hevict
  obtain ⟨hpre, -, hle', hroom', hlap'⟩ := hshape.room_made habove' (by simp) hevict hmake
  obtain ⟨hcpos, hdpos⟩ := hshape.remains habove' (by simp) hpre hlap' hxle
  simp only [span_cons, span_nil, Nat.add_zero] at htop hroom' hlap'
  rw [Ring.next] at *
  -- the chunk, then its record, then the cut behind it
  obtain ⟨s₁, hwrite, h₁, -, hentry₁, hemits₁⟩ := cellBodyWriteChunk_gap he.isBuffer h
    (by rw [hbits]) (by rw [hbits]) (Nat.le_of_eq hx.symm)
  have hentry₁ := hentry₁ (Nat.lt_succ_of_le he.size_le)
  obtain ⟨s₂, hadd, h₂, hbody₂, hemits₂⟩ := cellBodyAddDirEntry_spec
    (e := cellDirEntrySet e.checksum (span r.below)) e.data.length h₁ rfl
    (hshape.rest_live habove' (by simp)) (by rw [← htop]; exact hmake) hroom'
    (by rw [hx, Entry.span]; omega) (by rw [hx, Entry.span]; omega) hcpos hdpos
  have hentry₂ : EntryAt s₂.mem (slab + span r.below) (prevOf 0 r.below) e :=
    hentry₁.congr (hbody₂.mono (by omega) (by omega))
  have hnext : u32 (span r.below + (36 + e.data.length)) = span (r.below ++ [e]) := by
    simp only [span_append, span_cons, span_nil, Entry.span]
    rw [u32_of_lt (by rw [hx, Entry.span] at hroom'; omega)]
    omega
  have h₃ := h₂.renext (v := span (r.below ++ [e])) (by
    simp only [span_append, span_cons, span_nil, ← hx]
    omega)
  have hentry₃ : EntryAt (s₂.store32 .bodyOffsets (slab + 1019892 + 4) (span (r.below ++ [e]))).mem
      (slab + span r.below) (prevOf 0 r.below) e :=
    hentry₂.congr (Machine.store32_agree _ _ _ _ (by omega))
  refine ⟨s₂.store32 .bodyOffsets (slab + 1019892 + 4) (span (r.below ++ [e])), ?_, ?_,
    fun visits => ?_⟩
  · rw [cellBodyAddInPlace, bind_ok hwrite, load_bind, h₁.nextOffset, bind_ok hadd, load_bind,
      h₂.nextOffset]
    simp only [sizeofCellBodyEntry]
    rw [hnext, store32_run]
  · refine h₃.settle [e] ⟨hentry₃, trivial⟩ ?_ hsize ?_ ?_ (by simp) rfl
    · rw [span_cons, span_nil, Nat.add_zero, hx]
    · simp [liveCount, he.live]
    · simp [liveBytes, he.live, hlen]
  · exact ((hemits₁.mono fun _ hev => AddEvent.of_body hev (by omega) (by omega)).trans
      (hemits₂ visits)).trans ((Emits.store32_in s₂ (by omega) (by omega)).mono
        fun _ hev => Or.inr (Or.inr (Or.inl hev)))

/-- Where no room can be made, the assertion that the index has the entry fails. -/
theorem cellBodyAddInPlace_abort (hshape : r.Shape l) (he : e.IsChunk l)
    (hfind : r.dir.find e.checksum = none) (habove : r.above = x :: es) (hsize : x.size = e.size)
    (hevict : removeAll r.dir [x] = some dir)
    (h : OpenRep s.mem slab r.next r.below x.span x.size es (liveCount r.below) (liveBytes r.below)
      dir)
    (hbits : entryBits s.mem (slab + r.next) = ⟨0, 0, x.size, prevOf 0 r.below⟩)
    (hmake : makeRoom r.top dir es = none) :
    ∃ s', cellBodyAddInPlace (slab + 1019892) (cellAt slab) (slab + r.next) e.checksum e.data s =
        .error .always s' ∧ ∀ visits o, Emits (AddEvent slab visits r.top o) s s' := by
  have habove' : r.above = [x] ++ es := habove
  have hx : x.span = e.span := by rw [Entry.span, Entry.span, hsize]
  have hes := hshape.rest_live habove' (by simp)
  have htop := Ring.top_eq r habove'
  have hmissing := Index.remove_of_find_none (removeAll_find_none hfind hevict)
  simp only [span_cons, span_nil, Nat.add_zero] at htop
  rw [Ring.next] at *
  rw [htop] at hmake
  obtain ⟨s₁, hwrite, h₁, -, hentry₁, hemits₁⟩ := cellBodyWriteChunk_gap he.isBuffer h
    (by rw [hbits]) (by rw [hbits]) (Nat.le_of_eq hx.symm)
  have hentry₁ := hentry₁ (Nat.lt_succ_of_le he.size_le)
  obtain ⟨s', hadd, hemits⟩ := cellBodyAddDirEntry_abort (cellDirEntrySet e.checksum (span r.below))
    e.data.length h₁ hes hmake fun _ => ⟨hentry₁, he.live, hsize.symm, hx.symm, hmissing⟩
  refine ⟨s', ?_, fun visits o =>
    (hemits₁.mono fun _ hev => AddEvent.of_body hev (by omega) (by omega)).trans (hemits _ _ _)⟩
  rw [cellBodyAddInPlace, bind_ok hwrite, load_bind, h₁.nextOffset, bind_error hadd]

end InPlace

/-! ## Merging entries -/

/-- The entry of a hole of `k` bytes, behind an entry of the size `previous`. -/
def holed (s : Store) (q previous k : Nat) : Store :=
  assigned (assigned (assigned (assigned (s.storeBytes .body q (List.replicate 36 0)) .previousSize q
    previous) .size q k) .freeSpace q 1) .topEntry q 0

theorem holed_agree (s : Store) (q previous k : Nat) {lo hi : Nat} (hd : hi ≤ q ∨ q + 36 ≤ lo) :
    s.mem.Agree (holed s q previous k).mem lo hi := by
  have hclear : s.mem.Agree (s.storeBytes .body q (List.replicate 36 0)).mem lo hi :=
    Machine.storeBytes_agree _ _ _ _ (by rw [List.length_replicate]; omega)
  unfold holed
  exact (((hclear.trans (assigned_agree _ _ _ _ (by omega))).trans
    (assigned_agree _ _ _ _ (by omega))).trans (assigned_agree _ _ _ _ (by omega))).trans
    (assigned_agree _ _ _ _ (by omega))

theorem holed_entryAt (s : Store) (q : Nat) {previous k : Nat} (hprevious : previous < 32768)
    (hk : k < 32768) : EntryAt (holed s q previous k).mem q previous (Entry.hole k) := by
  refine ⟨?_, fun hlive => by cases hlive⟩
  unfold holed
  rw [entryBits_assigned, entryBits_assigned, entryBits_assigned, entryBits_assigned]
  simp only [EntryBits.assign, Entry.hole, Nat.mod_eq_of_lt hk, Nat.mod_eq_of_lt hprevious,
    Bool.toNat_true, Nat.zero_mod]

theorem holed_emits (s : Store) (q previous k : Nat) :
    Emits (Event.StoreIn .body q (q + 36)) s (holed s q previous k) := by
  have hclear : Emits (Event.StoreIn .body q (q + 36)) s
      (s.storeBytes .body q (List.replicate 36 0)) :=
    Emits.storeBytes_in s (Nat.le_refl _) (by rw [List.length_replicate])
  unfold holed
  exact (((hclear.trans (assigned_emits _ (by omega) (by omega))).trans
    (assigned_emits _ (by omega) (by omega))).trans
    (assigned_emits _ (by omega) (by omega))).trans (assigned_emits _ (by omega) (by omega))

/-- The entry of the hole, then the back link of what follows. -/
theorem cellBodyAddHole_run {next : Nat} (k size : Nat)
    (hnext : nextEntryOffset s.mem (slab + 1019892) = next) :
    cellBodyAddHole (slab + 1019892) (cellAt slab) k size s =
      .ok () (assigned (holed s (slab + next) size k) .previousSize (slab + next + (36 + k)) k) := by
  rw [cellBodyAddHole, load_bind, hnext]
  simp only [cellAt]
  rw [cellBodyEntryInit, memset_bind, assignField_bind, assignField_bind, assignField_bind,
    assignField_bind]
  simp only [sizeofCellBodyEntry]
  rw [assignField_run, holed]

/-- The length of the hole is stored in 15 bits too. -/
theorem holed_size (s : Store) (q previous k : Nat) :
    (entryBits (holed s q previous k).mem q).size = k % 2 ^ 15 := by
  unfold holed
  rw [entryBits_assigned, entryBits_assigned, entryBits_assigned, entryBits_assigned]
  rfl

/-- The bytes between the chunk and the entries behind the gap become a hole. -/
theorem cellBodyAddHole_spec {k prev c d : Nat} (he : e.IsChunk l) (hk : k < 32768)
    (h : OpenRep s.mem slab (span below + e.span) below (e.span + (36 + k)) prev rest c d dir)
    (hentry : EntryAt s.mem (slab + span below) (prevOf 0 below) e)
    (hc : c = liveCount below + 1) (hd : d = liveBytes below + e.size) :
    ∃ s', cellBodyAddHole (slab + 1019892) (cellAt slab) k e.data.length s = .ok () s' ∧
      CellRep s'.mem slab ⟨below ++ [e], Entry.hole k :: rest, dir⟩ ∧
      ∀ visits o, Emits (AddEvent slab visits (span below + (e.span + (36 + k)) + span rest) o)
        s s' := by
  have hroom := h.room
  have hsize := he.size_le
  obtain ⟨q, hq⟩ : ∃ q, q = slab + (span below + e.span) := ⟨_, rfl⟩
  obtain ⟨s₂, hs₂⟩ : ∃ s₂, s₂ = holed s q e.size k := ⟨_, rfl⟩
  have hframe : ∀ {lo hi}, hi ≤ q ∨ q + 36 ≤ lo → s.mem.Agree s₂.mem lo hi := fun hd => by
    rw [hs₂]
    exact holed_agree s q e.size k hd
  have hhole : EntryAt s₂.mem q e.size (Entry.hole k) := by
    rw [hs₂]
    exact holed_entryAt s q (by omega) hk
  have h₂ : OpenRep s₂.mem slab (span below + e.span) below (e.span + (36 + k)) prev rest c d dir :=
    h.congr fun hd => hframe (by omega)
  obtain ⟨s₃, hs₃⟩ : ∃ s₃, s₃ = assigned s₂ .previousSize
    (slab + (span below + (e.span + (36 + k)))) k := ⟨_, rfl⟩
  have h₃ := h₂.relinked hk
  rw [← hs₃] at h₃
  have hframe₃ : ∀ {lo hi}, hi ≤ slab + (span below + (e.span + (36 + k))) →
      s₂.mem.Agree s₃.mem lo hi := by
    intro lo hi hd
    rw [hs₃]
    exact assigned_agree _ _ _ _ (by omega)
  have hspan : (Entry.hole k).span = k + 36 := rfl
  refine ⟨s₃, ?_, ?_, fun visits o => ?_⟩
  · rw [cellBodyAddHole_run _ _ h.nextOffset, hs₃, hs₂, he.data_length, hq]
    simp only [Nat.add_assoc]
  · refine h₃.settle [e, Entry.hole k] ⟨?_, ?_, trivial⟩ ?_ rfl ?_ ?_ (by simp) ?_
    · exact hentry.congr ((hframe (by omega)).trans (hframe₃ (by omega)))
    · rw [Nat.add_assoc, ← hq]
      exact hhole.congr (hframe₃ (by omega))
    · simp only [span_cons, span_nil, hspan]
      omega
    · simp [liveCount, he.live, hc, Entry.hole]
    · simp [liveBytes, he.live, hd, Entry.hole]
    · rw [span_append, span_cons, span_nil, Nat.add_zero]
  · have hfields : Emits (Event.StoreIn .body q (q + 36)) s s₂ := by
      rw [hs₂]
      exact holed_emits s q e.size k
    have hlink : Emits (Event.StoreIn .body q (slab + (span below + (e.span + (36 + k))) + 36))
        s₂ s₃ := by
      rw [hs₃]
      exact assigned_emits _ (by omega) (by omega)
    exact (hfields.mono fun _ hev => AddEvent.of_body hev (by omega) (by omega)).trans
      (hlink.mono fun _ hev => AddEvent.of_body hev (by omega) (by omega))

/-- The chunk and its index entry, in a gap that holds it and a hole of `k` bytes. -/
theorem cellBodyAddAndSplit_start {k prev : Nat} {dir' : Dir} {rest' : List Entry} (he : e.IsBuffer)
    (h : OpenRep s.mem slab (span below) below (e.span + (36 + k)) prev rest (liveCount below)
      (liveBytes below) dir)
    (hbits : (entryBits s.mem (slab + span below)).topEntry = 0)
    (hprev : (entryBits s.mem (slab + span below)).previousSize = prevOf 0 below)
    (hlive : ∀ y ∈ rest, y.free = false)
    (hmake : makeRoom (span below + (e.span + (36 + k)) + span rest) dir rest = some (rest', dir'))
    (hroom : span below + (e.span + (36 + k)) + span rest' + 36 * (dir'.stack.length + 1) ≤ 1019836)
    (hcpos : 0 < liveCount below + liveCount rest')
    (hdpos : 0 < liveBytes below + liveBytes rest') :
    ∃ s₁, cellBodyAddAndSplit (slab + 1019892) (cellAt slab) (slab + span below) e.checksum e.data
        (e.size + 36 + k) s = cellBodyAddHole (slab + 1019892) (cellAt slab) k e.data.length s₁ ∧
      OpenRep s₁.mem slab (span below + e.span) below (e.span + (36 + k)) prev rest'
        (liveCount below + 1) (liveBytes below + e.size)
        (dir'.add (cellDirEntrySet e.checksum (span below))) ∧
      entryBits s₁.mem (slab + span below) = ⟨0, 0, e.size % 2 ^ 15, prevOf 0 below⟩ ∧
      (e.size < 32768 → EntryAt s₁.mem (slab + span below) (prevOf 0 below) e) ∧
      ∀ visits, Emits (AddEvent slab visits (span below + (e.span + (36 + k)) + span rest')
        (dir'.add (cellDirEntrySet e.checksum (span below))).stack.length) s s₁ := by
  have hsize := he.size_le
  have hlen := he.data_length
  have hpos := he.size_pos
  have hbytes := liveBytes_le_span below
  have hspan : e.span = e.size + 36 := rfl
  obtain ⟨s₁, hwrite, h₁, hwritten₁, hentry₁, hemits₁⟩ :=
    cellBodyWriteChunk_gap he h hbits hprev (by omega)
  obtain ⟨s₂, hadd, h₂, hbody₂, hemits₂⟩ := cellBodyAddDirEntry_spec
    (e := cellDirEntrySet e.checksum (span below)) e.data.length h₁ rfl hlive hmake hroom
    (by omega) (by omega) hcpos hdpos
  have hnext : u32 (span below + (36 + e.data.length)) = span below + e.span := by
    rw [u32_of_lt (by omega)]
    omega
  have hfree : sub32 (e.size + 36 + k) (u32 (e.data.length + 36)) = k := by
    rw [u32_of_lt (by omega), sub32_of_le (by omega) (by omega)]
    omega
  obtain ⟨s₃, hs₃⟩ : ∃ s₃, s₃ = s₂.store32 .bodyOffsets (slab + 1019892 + 4) (span below + e.span) :=
    ⟨_, rfl⟩
  have h₃ := h₂.renext (v := span below + e.span) (by omega)
  have hframe₃ : s₁.mem.Agree s₃.mem (slab + span below) (slab + span below + e.span) := by
    rw [hs₃]
    exact (hbody₂.mono (by omega) (by omega)).trans (Machine.store32_agree _ _ _ _ (by omega))
  have hemits₃ : Emits (Event.StoreIn .bodyOffsets (slab + 1019892) (slab + 1019900)) s₂ s₃ := by
    rw [hs₃]
    exact Emits.store32_in s₂ (by omega) (by omega)
  rw [← hs₃, hlen] at h₃
  refine ⟨s₃, ?_, h₃, ?_, fun hlt => (hentry₁ hlt).congr hframe₃, fun visits => ?_⟩
  · rw [cellBodyAddAndSplit, bind_ok hwrite, load_bind, h₁.nextOffset, bind_ok hadd]
    simp only [sizeofCellBodyEntry]
    rw [load_bind, h₂.nextOffset, hnext, hfree, store32_bind, ← hs₃]
  · rw [entryBits_congr (hframe₃.mono (by omega) (by omega)), hwritten₁]
  · exact ((hemits₁.mono fun _ hev => AddEvent.of_body hev (by omega) (by omega)).trans
      (hemits₂ visits)).trans (hemits₃.mono fun _ hev => Or.inr (Or.inr (Or.inl hev)))

/-- The chunk, its index entry and the hole behind it. -/
theorem cellBodyAddAndSplit_spec {k prev : Nat} {dir' : Dir} {rest' : List Entry} (he : e.IsChunk l)
    (hk : k < 32768)
    (h : OpenRep s.mem slab (span below) below (e.span + (36 + k)) prev rest (liveCount below)
      (liveBytes below) dir)
    (hbits : (entryBits s.mem (slab + span below)).topEntry = 0)
    (hprev : (entryBits s.mem (slab + span below)).previousSize = prevOf 0 below)
    (hlive : ∀ y ∈ rest, y.free = false)
    (hmake : makeRoom (span below + (e.span + (36 + k)) + span rest) dir rest = some (rest', dir'))
    (hroom : span below + (e.span + (36 + k)) + span rest' + 36 * (dir'.stack.length + 1) ≤ 1019836)
    (hcpos : 0 < liveCount below + liveCount rest')
    (hdpos : 0 < liveBytes below + liveBytes rest') :
    ∃ s', cellBodyAddAndSplit (slab + 1019892) (cellAt slab) (slab + span below) e.checksum e.data
        (e.size + 36 + k) s = .ok () s' ∧
      CellRep s'.mem slab ⟨below ++ [e], Entry.hole k :: rest',
        dir'.add (cellDirEntrySet e.checksum (span below))⟩ ∧
      ∀ visits, Emits (AddEvent slab visits (span below + (e.span + (36 + k)) + span rest')
        (dir'.add (cellDirEntrySet e.checksum (span below))).stack.length) s s' := by
  obtain ⟨s₁, hrun, h₁, -, hentry₁, hemits₁⟩ :=
    cellBodyAddAndSplit_start he.isBuffer h hbits hprev hlive hmake hroom hcpos hdpos
  obtain ⟨s', hhole, hrep, hemits⟩ :=
    cellBodyAddHole_spec he hk h₁ (hentry₁ (Nat.lt_succ_of_le he.size_le)) rfl rfl
  exact ⟨s', hrun.trans hhole, hrep, fun visits => (hemits₁ visits).trans (hemits visits _)⟩

/-- What is stored of the lengths, whether or not they fit. -/
theorem cellBodyAddAndSplit_sizes {k prev : Nat} {dir' : Dir} {rest' : List Entry} (he : e.IsBuffer)
    (h : OpenRep s.mem slab (span below) below (e.span + (36 + k)) prev rest (liveCount below)
      (liveBytes below) dir)
    (hbits : (entryBits s.mem (slab + span below)).topEntry = 0)
    (hprev : (entryBits s.mem (slab + span below)).previousSize = prevOf 0 below)
    (hlive : ∀ y ∈ rest, y.free = false)
    (hmake : makeRoom (span below + (e.span + (36 + k)) + span rest) dir rest = some (rest', dir'))
    (hroom : span below + (e.span + (36 + k)) + span rest' + 36 * (dir'.stack.length + 1) ≤ 1019836)
    (hcpos : 0 < liveCount below + liveCount rest')
    (hdpos : 0 < liveBytes below + liveBytes rest') :
    ∃ s', cellBodyAddAndSplit (slab + 1019892) (cellAt slab) (slab + span below) e.checksum e.data
        (e.size + 36 + k) s = .ok () s' ∧
      (entryBits s'.mem (slab + span below)).size = e.size % 2 ^ 15 ∧
      (entryBits s'.mem (slab + (span below + e.span))).size = k % 2 ^ 15 := by
  have hspan : e.span = e.size + 36 := rfl
  obtain ⟨s₁, hrun, h₁, hwritten₁, -⟩ :=
    cellBodyAddAndSplit_start he h hbits hprev hlive hmake hroom hcpos hdpos
  refine ⟨_, hrun.trans (cellBodyAddHole_run _ _ h₁.nextOffset), ?_, ?_⟩
  · rw [entryBits_congr ((holed_agree s₁ _ _ _ (by omega)).trans (assigned_agree _ _ _ _ (by omega))),
      hwritten₁]
  · rw [entryBits_congr (assigned_agree _ _ _ _ (by omega)), holed_size]

theorem cellBodyAddAndSplit_abort {k prev : Nat} (he : e.IsBuffer)
    (h : OpenRep s.mem slab (span below) below (e.span + (36 + k)) prev rest (liveCount below)
      (liveBytes below) dir)
    (hbits : (entryBits s.mem (slab + span below)).topEntry = 0)
    (hprev : (entryBits s.mem (slab + span below)).previousSize = prevOf 0 below)
    (hlive : ∀ y ∈ rest, y.free = false) (hne : rest ≠ [])
    (hmake : makeRoom (span below + (e.span + (36 + k)) + span rest) dir rest = none) (free : Nat) :
    ∃ s', cellBodyAddAndSplit (slab + 1019892) (cellAt slab) (slab + span below) e.checksum e.data
        free s = .error .always s' ∧
      ∀ visits o, Emits (AddEvent slab visits (span below + (e.span + (36 + k)) + span rest) o)
        s s' := by
  have hspan : e.span = e.size + 36 := rfl
  obtain ⟨s₁, hwrite, h₁, -, -, hemits₁⟩ := cellBodyWriteChunk_gap he h hbits hprev (by omega)
  obtain ⟨s', hadd, hemits⟩ := cellBodyAddDirEntry_abort (x := e) (p := 0)
    (cellDirEntrySet e.checksum (span below)) e.data.length h₁ hlive hmake fun hnil => absurd hnil hne
  refine ⟨s', ?_, fun visits o =>
    (hemits₁.mono fun _ hev => AddEvent.of_body hev (by omega) (by omega)).trans (hemits _ _ _)⟩
  rw [cellBodyAddAndSplit, bind_ok hwrite, load_bind, h₁.nextOffset, bind_error hadd]

theorem cellBodyNextEntryIsTop_run {last ptr : Nat}
    (hptr : ptr = last + ((entryBits s.mem last).size + 36)) :
    cellBodyNextEntryIsTop last s =
      .ok (cellBodyEntryTop s.mem ptr) (s.emit (.mark (.visit ptr))) := by
  rw [cellBodyNextEntryIsTop, load_bind]
  simp only [sizeofCellBodyEntry]
  rw [← hptr, emit_bind, load_run, Machine.mem_emit_mark]

section Merged

variable {dir₁ : Dir}

/-- What the merge loop needs to know of the entries behind the cut. -/
theorem merge_bounds (slab : Nat) (hshape : r.Shape l) (he : e.IsBuffer) (habove : r.above = x :: es) :
    x.size ≤ 32767 ∧ x.size + span es < 2 ^ 32 ∧
      0 < liveCount r.below + liveCount (gather (e.size + 36) x.size es).2.2 ∧
      0 < liveBytes r.below + liveBytes (gather (e.size + 36) x.size es).2.2 ∧
      ∀ xs ys, es = xs ++ ys → Boundary slab r (slab + (span r.below + x.span + span xs)) := by
  have habove' := Ring.gather_above habove (e.size + 36)
  have htaken := hshape.taken_le he habove
  have hroom := hshape.room
  have hesspan := Ring.top_eq r (show r.above = [x] ++ es from habove)
  have hx : x.size ≤ 32767 := (hshape.valid x (by rw [Ring.entries, habove]; simp)).size_le
  obtain ⟨hc, hd⟩ := hshape.remains habove' (by simp) (List.prefix_refl _) (by
    rw [← Ring.top_eq r habove']
    exact hshape.lap (by rw [habove]; simp)) (by omega)
  refine ⟨hx, by omega, hc, hd, ?_⟩
  rintro xs ys rfl
  refine ⟨r.below ++ x :: xs, ys, by rw [Ring.entries, habove]; simp, ?_⟩
  rw [span_append, span_cons, Nat.add_assoc]

/-- Merging entries leads to one of two ends, depending on whether the top is next. -/
theorem cellBodyAddMerged_start (hshape : r.Shape l) (he : e.IsBuffer) (habove : r.above = x :: es)
    (h : OpenRep s.mem slab r.next r.below x.span x.size es (liveCount r.below) (liveBytes r.below)
      dir)
    (hbits : entryBits s.mem (slab + r.next) = ⟨0, 0, x.size, prevOf 0 r.below⟩)
    (htake : removeAll dir (gather (e.size + 36) x.size es).2.1 = some dir₁) :
    ∃ s₁, OpenRep s₁.mem slab r.next r.below (x.span + span (gather (e.size + 36) x.size es).2.1)
        (prevOf x.size (gather (e.size + 36) x.size es).2.1) (gather (e.size + 36) x.size es).2.2
        (liveCount r.below) (liveBytes r.below) dir₁ ∧
      entryBits s₁.mem (slab + r.next) = ⟨0, 0, x.size, prevOf 0 r.below⟩ ∧
      (∀ t o, Emits (AddEvent slab (Boundary slab r) t o) s s₁) ∧
      cellBodyAddMerged (slab + 1019892) (cellAt slab) (slab + r.next) e.checksum e.data s =
        (if (gather (e.size + 36) x.size es).2.2 = [] then
          cellBodyPushDownTop (slab + 1019892) (cellAt slab) (slab + r.next) e.checksum e.data
        else cellBodyAddAndSplit (slab + 1019892) (cellAt slab) (slab + r.next) e.checksum e.data
          (gather (e.size + 36) x.size es).1) s₁ := by
  have habove' := Ring.gather_above habove (e.size + 36)
  have hshort := gather_short (e.size + 36) x.size es
  have hsize := he.size_le
  have hlen := he.data_length
  have hroom := h.room
  obtain ⟨hx, hsmall, hc, hd, hvisits⟩ := merge_bounds slab hshape he habove
  obtain ⟨s₁, h₁, hbody₁, hemits₁, hloop⟩ := cellBodyMergeLoop_spec (e.size + 36)
    (e.size + 36 + 1) (slab + r.next) x.size h
    (by rw [hbits, Ring.next]; simp only [Entry.span]; omega) (by omega) htake hc hd hvisits
    (by omega) hsmall
  have hrequired : u32 (e.data.length + 36) = e.size + 36 := by rw [hlen, u32_of_lt (by omega)]
  have hprev₁ : entryBits s₁.mem (slab + r.next) = ⟨0, 0, x.size, prevOf 0 r.below⟩ := by
    rw [Ring.next] at hbits ⊢
    rw [entryBits_congr (hbody₁.mono (by omega) (by rw [Entry.span]; omega)), hbits]
  rw [cellBodyAddMerged]
  simp only [sizeofCellBodyEntry, hrequired]
  rw [load_bind, hbits]
  generalize gather (e.size + 36) x.size es = merged at *
  obtain ⟨free, taken, rest⟩ := merged
  simp only at *
  -- the loop ran into the top, or the source looks whether the top comes next
  rcases hloop with ⟨hlt, hloop⟩ | ⟨last, -, hlast, hloop⟩
  · rw [hshort hlt] at h₁ ⊢
    refine ⟨s₁, h₁, hprev₁, hemits₁, (bind_ok hloop _).trans ?_⟩
    rw [if_pos rfl]
  · have hvisit : Boundary slab r (slab + (span r.below + (x.span + span taken))) :=
      ⟨r.below ++ x :: taken, rest, by rw [Ring.entries, habove', List.append_assoc], by
        rw [span_append, span_cons]⟩
    have hnext := cellBodyNextEntryIsTop_run hlast
    obtain ⟨s₂, hs₂⟩ : ∃ s₂, s₂ = s₁.emit (.mark (.visit
      (slab + (span r.below + (x.span + span taken))))) := ⟨_, rfl⟩
    have hmem₂ : s₂.mem = s₁.mem := by rw [hs₂, Machine.mem_emit_mark]
    have hemits₂ : ∀ t o, Emits (AddEvent slab (Boundary slab r) t o) s₁ s₂ := fun t o => by
      rw [hs₂]
      exact visit_emits s₁ hvisit
    refine ⟨s₂, by rwa [hmem₂], by rwa [hmem₂], fun t o => (hemits₁ t o).trans (hemits₂ t o), ?_⟩
    refine (bind_ok hloop _).trans ?_
    cases rest with
    | nil =>
        have htop := h₁.top.top
        rw [span_nil, Nat.add_zero] at htop
        rw [htop, ← hs₂] at hnext
        refine (bind_ok hnext _).trans ?_
        rw [if_pos rfl, if_pos rfl]
    | cons y ys =>
        rw [h₁.restSeg.1.top, ← hs₂] at hnext
        refine (bind_ok hnext _).trans ?_
        rw [if_neg Bool.false_ne_true, if_neg (List.cons_ne_nil y ys)]

/-- Where merging stops short of the top, the gap takes the chunk and a hole. -/
theorem merged_gap (habove : r.above = x :: es)
    (hrest : (gather (e.size + 36) x.size es).2.2 ≠ []) :
    (gather (e.size + 36) x.size es).1 = e.size + 36 + Ring.leftover x es e ∧
      x.span + span (gather (e.size + 36) x.size es).2.1 =
        e.span + (36 + Ring.leftover x es e) ∧
      r.top = span r.below + (e.span + (36 + Ring.leftover x es e)) +
        span (gather (e.size + 36) x.size es).2.2 := by
  have henough := gather_enough (e.size + 36) x.size es hrest
  have hfree := gather_free (e.size + 36) x.size es
  have hgap : x.span + span (gather (e.size + 36) x.size es).2.1 =
      e.span + (36 + Ring.leftover x es e) := by
    rw [Ring.leftover, Entry.span, Entry.span]
    omega
  refine ⟨by rw [Ring.leftover]; omega, hgap, ?_⟩
  rw [Ring.top_eq r (Ring.gather_above habove (e.size + 36)), span_cons, hgap, Ring.next]

/-- Once there is room for the record, there is room for all that goes into the gap. -/
theorem merged_room (hshape : r.Shape l) (he : e.IsBuffer) (habove : r.above = x :: es)
    (hrest : (gather (e.size + 36) x.size es).2.2 ≠ [])
    (htake : removeAll r.dir (x :: (gather (e.size + 36) x.size es).2.1) = some dir)
    (rest' : List Entry) (dir' : Dir)
    (hmake : makeRoom r.top dir (gather (e.size + 36) x.size es).2.2 = some (rest', dir')) :
    span r.below + (e.span + (36 + Ring.leftover x es e)) + span rest' +
        36 * (dir'.stack.length + 1) ≤ 1019836 ∧
      0 < liveCount r.below + liveCount rest' ∧ 0 < liveBytes r.below + liveBytes rest' := by
  have habove' := Ring.gather_above habove (e.size + 36)
  have htaken := hshape.taken_le he habove
  obtain ⟨-, hgap, -⟩ := merged_gap habove hrest
  obtain ⟨hpre, -, -, hroom, hlap⟩ := hshape.room_made habove' (by simp) htake hmake
  obtain ⟨hcount, hbytes⟩ := hshape.remains habove' (by simp) hpre hlap (by omega)
  rw [Ring.next, span_cons, hgap] at hroom
  exact ⟨hroom, hcount, hbytes⟩

theorem cellBodyAddMerged_spec (hshape : r.Shape l) (he : e.IsChunk l) (habove : r.above = x :: es)
    (hhole : (gather (e.size + 36) x.size es).2.2 ≠ [] → Ring.leftover x es e ≤ l.hole)
    (hevict : removeAll r.dir [x] = some dir)
    (h : OpenRep s.mem slab r.next r.below x.span x.size es (liveCount r.below) (liveBytes r.below)
      dir)
    (hbits : entryBits s.mem (slab + r.next) = ⟨0, 0, x.size, prevOf 0 r.below⟩)
    (hadd : r.merge x es e = some r') :
    ∃ s', cellBodyAddMerged (slab + 1019892) (cellAt slab) (slab + r.next) e.checksum e.data s =
        .ok () s' ∧ CellRep s'.mem slab r' ∧
      Emits (AddEvent slab (Boundary slab r) r'.top r'.dir.stack.length) s s' := by
  have habove' := Ring.gather_above habove (e.size + 36)
  have hgap := @merged_gap _ e _ _ habove
  obtain ⟨dir₁, htake', hadd⟩ := Option.bind_eq_some_iff.1 hadd
  have hmade := fun hrest => merged_room hshape he.isBuffer habove hrest htake'
  have htake := htake'
  rw [show x :: (gather (e.size + 36) x.size es).2.1 = [x] ++ (gather (e.size + 36) x.size es).2.1
    from rfl, removeAll_append, hevict, Option.bind_some] at htake
  obtain ⟨s₁, h₁, hprev₁, hemits₁, hrun⟩ :=
    cellBodyAddMerged_start hshape he.isBuffer habove h hbits htake
  rw [hrun]
  obtain ⟨k, hk⟩ : ∃ k, k = Ring.leftover x es e := ⟨_, rfl⟩
  have hfront : (gather (e.size + 36) x.size es).1 - (e.size + 36) = k := hk.symm
  simp only [hfront] at hadd
  rw [← hk] at hhole hgap hmade
  generalize gather (e.size + 36) x.size es = merged at *
  obtain ⟨free, taken, rest⟩ := merged
  simp only at *
  rw [Ring.next] at *
  cases rest with
  | nil =>
      -- everything up to the top was merged
      rw [Option.some.injEq] at hadd
      rw [if_pos rfl]
      obtain ⟨s', hdown, hrep, hemits⟩ := cellBodyPushDownTop_spec he h₁ (by rw [hprev₁]) hadd.symm
      exact ⟨s', hdown, hrep, (hemits₁ _ _).trans (hemits _)⟩
  | cons y ys =>
      -- the chunk goes to the front of the gap, and a hole of `k` bytes behind it
      obtain ⟨⟨rest', dir'⟩, hmake, rfl⟩ := Option.map_eq_some_iff.1 hadd
      obtain ⟨hfree, hgap, htop⟩ := hgap (List.cons_ne_nil y ys)
      obtain ⟨hroom, hcpos, hdpos⟩ := hmade (List.cons_ne_nil y ys) rest' dir' hmake
      have hklt : k < 32768 := Nat.lt_succ_of_le
        (Nat.le_trans (hhole (List.cons_ne_nil y ys)) l.hole_le)
      rw [hgap] at h₁
      obtain ⟨s', hsplit, hrep, hemits⟩ := cellBodyAddAndSplit_spec he hklt h₁ (by rw [hprev₁])
        (by rw [hprev₁]) (hshape.rest_live habove' (by simp)) (by rw [← htop]; exact hmake)
        hroom hcpos hdpos
      refine ⟨s', ?_, hrep, ?_⟩
      · rw [if_neg (List.cons_ne_nil y ys), hfree]
        exact hsplit
      · have htop' : Ring.top ⟨r.below ++ [e], Entry.hole k :: rest', dir'.add (r.place e)⟩ =
            span r.below + (e.span + (36 + k)) + span rest' := by
          simp only [Ring.top, Ring.entries, span_append, span_cons, span_nil, Entry.hole, Entry.span]
          omega
        rw [htop']
        exact (hemits₁ _ _).trans (hemits _)

/-- Where the index does not have what merging takes out of it, an assertion fails. -/
theorem cellBodyAddMerged_abort (hshape : r.Shape l) (he : e.IsBuffer) (habove : r.above = x :: es)
    (hevict : removeAll r.dir [x] = some dir)
    (h : OpenRep s.mem slab r.next r.below x.span x.size es (liveCount r.below) (liveBytes r.below)
      dir)
    (hbits : entryBits s.mem (slab + r.next) = ⟨0, 0, x.size, prevOf 0 r.below⟩)
    (hadd : r.merge x es e = none) :
    ∃ s', cellBodyAddMerged (slab + 1019892) (cellAt slab) (slab + r.next) e.checksum e.data s =
        .error .always s' ∧ ∀ o, Emits (AddEvent slab (Boundary slab r) r.top o) s s' := by
  have habove' := Ring.gather_above habove (e.size + 36)
  have hgap := @merged_gap _ e _ _ habove
  have hsplit : removeAll r.dir (x :: (gather (e.size + 36) x.size es).2.1) =
      removeAll dir (gather (e.size + 36) x.size es).2.1 := by
    rw [show x :: (gather (e.size + 36) x.size es).2.1 = [x] ++ (gather (e.size + 36) x.size es).2.1
      from rfl, removeAll_append, hevict, Option.bind_some]
  rw [Ring.merge] at hadd
  simp only [hsplit] at hadd
  cases htake : removeAll dir (gather (e.size + 36) x.size es).2.1 with
  | none =>
      -- an eviction of the loop fails
      obtain ⟨hx, hsmall, hc, hd, hvisits⟩ := merge_bounds slab hshape he habove
      have hsize := he.size_le
      have hlen := he.data_length
      obtain ⟨s', hloop, hemits⟩ := cellBodyMergeLoop_abort (e.size + 36) (e.size + 36 + 1)
        (slab + r.next) x.size h (by rw [hbits, Ring.next]; simp only [Entry.span]; omega) (by omega)
        htake hc hd hvisits (by omega) hsmall
      refine ⟨s', ?_, fun o => hemits _ o⟩
      have hrequired : u32 (e.data.length + 36) = e.size + 36 := by rw [hlen, u32_of_lt (by omega)]
      rw [cellBodyAddMerged]
      simp only [sizeofCellBodyEntry, hrequired]
      rw [load_bind, hbits]
      exact bind_error hloop _
  | some dir₁ =>
      -- or making room for the record does
      obtain ⟨s₁, h₁, hprev₁, hemits₁, hrun⟩ :=
        cellBodyAddMerged_start hshape he habove h hbits htake
      rw [htake, Option.bind_some] at hadd
      rw [hrun]
      generalize gather (e.size + 36) x.size es = merged at *
      obtain ⟨free, taken, rest⟩ := merged
      simp only at *
      rw [Ring.next] at *
      cases rest with
      | nil => cases hadd
      | cons y ys =>
          obtain ⟨-, hgap, htop⟩ := hgap (List.cons_ne_nil y ys)
          rw [hgap] at h₁
          rw [Option.map_eq_none_iff, htop] at hadd
          obtain ⟨s', habort, hemits⟩ := cellBodyAddAndSplit_abort he h₁ (by rw [hprev₁])
            (by rw [hprev₁]) (hshape.rest_live habove' (by simp)) (List.cons_ne_nil y ys) hadd free
          refine ⟨s', ?_, fun o => ?_⟩
          · rw [if_neg (List.cons_ne_nil y ys)]
            exact habort
          · rw [htop]
            exact (hemits₁ _ _).trans (hemits _ _)

/-- How merging comes to an end, and which lengths it has stored by then, whether or not they fit: the
chunk goes to the top, or is lost, or lies in front of a hole. -/
def MergeEnds (slab : Nat) (r : Ring) (x : Entry) (es : List Entry) (e : Entry) (dir : Dir)
    (s s' : Store) : Prop :=
  ((gather (e.size + 36) x.size es).2.2 = [] ∧ Ring.fits ⟨r.below, [], dir⟩ e = true ∧
      (entryBits s'.mem (slab + r.next)).size = e.size % 2 ^ 15) ∨
    ((gather (e.size + 36) x.size es).2.2 = [] ∧ ¬ Ring.fits ⟨r.below, [], dir⟩ e = true ∧
      CellRep s'.mem slab ⟨r.below, [], dir⟩ ∧
      Emits (AddEvent slab (Boundary slab r) r.next dir.stack.length) s s') ∨
    ((gather (e.size + 36) x.size es).2.2 ≠ [] ∧
      (entryBits s'.mem (slab + r.next)).size = e.size % 2 ^ 15 ∧
      (entryBits s'.mem (slab + (r.next + e.span))).size = Ring.leftover x es e % 2 ^ 15)

theorem cellBodyAddMerged_outcome {s' : Store} (hshape : r.Shape l) (he : e.IsBuffer)
    (habove : r.above = x :: es) (hevict : removeAll r.dir [x] = some dir)
    (h : OpenRep s.mem slab r.next r.below x.span x.size es (liveCount r.below) (liveBytes r.below)
      dir)
    (hbits : entryBits s.mem (slab + r.next) = ⟨0, 0, x.size, prevOf 0 r.below⟩)
    (hrun : cellBodyAddMerged (slab + 1019892) (cellAt slab) (slab + r.next) e.checksum e.data s =
      .ok () s') :
    ∃ dir₁, removeAll r.dir (x :: (gather (e.size + 36) x.size es).2.1) = some dir₁ ∧
      MergeEnds slab r x es e dir₁ s s' := by
  have habove' := Ring.gather_above habove (e.size + 36)
  have hgap := @merged_gap _ e _ _ habove
  cases hmerge : r.merge x es e with
  | none =>
      obtain ⟨s₁, habort, -⟩ := cellBodyAddMerged_abort hshape he habove hevict h hbits hmerge
      rw [habort] at hrun
      cases hrun
  | some r' =>
      obtain ⟨dir₁, htake', hadd⟩ := Option.bind_eq_some_iff.1 hmerge
      have hmade := fun hrest => merged_room hshape he habove hrest htake'
      have htake := htake'
      rw [show x :: (gather (e.size + 36) x.size es).2.1 =
        [x] ++ (gather (e.size + 36) x.size es).2.1 from rfl, removeAll_append, hevict,
        Option.bind_some] at htake
      obtain ⟨s₁, h₁, hprev₁, hemits₁, hmerged⟩ :=
        cellBodyAddMerged_start hshape he habove h hbits htake
      rw [hmerged] at hrun
      refine ⟨dir₁, htake', ?_⟩
      rw [MergeEnds]
      simp only at hadd
      generalize gather (e.size + 36) x.size es = merged at *
      obtain ⟨free, taken, rest⟩ := merged
      simp only at *
      rw [Ring.next] at *
      cases rest with
      | nil =>
          rw [if_pos rfl] at hrun
          rcases cellBodyPushDownTop_outcome he h₁ (by rw [hprev₁]) hrun with
            ⟨hfits, hsize⟩ | ⟨hfull, hrep, hemits⟩
          · exact Or.inl ⟨rfl, hfits, hsize⟩
          · exact Or.inr (Or.inl ⟨rfl, hfull, hrep, (hemits₁ _ _).trans (hemits _)⟩)
      | cons y ys =>
          obtain ⟨⟨rest', dir'⟩, hmake, -⟩ := Option.map_eq_some_iff.1 hadd
          obtain ⟨hfree, hgap, htop⟩ := hgap (List.cons_ne_nil y ys)
          obtain ⟨hroom, hcpos, hdpos⟩ := hmade (List.cons_ne_nil y ys) rest' dir' hmake
          rw [hgap] at h₁
          rw [htop] at hmake
          obtain ⟨s₂, hsplit, hchunk, hhole⟩ := cellBodyAddAndSplit_sizes he h₁ (by rw [hprev₁])
            (by rw [hprev₁]) (hshape.rest_live habove' (by simp)) hmake hroom hcpos hdpos
          rw [if_neg (List.cons_ne_nil y ys), hfree, hsplit, EStateM.Result.ok.injEq] at hrun
          rw [← hrun.2]
          exact Or.inr (Or.inr ⟨List.cons_ne_nil y ys, hchunk, hhole⟩)

end Merged

/-! ## The whole insertion -/

theorem overwrite_below (hadd : r.overwrite e = some r') : r.next ≤ r'.top := by
  have hle : ∀ {above : List Entry} {dir : Dir}, r.next ≤ Ring.top ⟨r.below ++ [e], above, dir⟩ := by
    intro above dir
    simp only [Ring.next, Ring.top, Ring.entries, span_append]
    omega
  rw [Ring.overwrite] at hadd
  split at hadd
  · cases hadd
  · split at hadd
    · obtain ⟨_, -, hadd⟩ := Option.bind_eq_some_iff.1 hadd
      obtain ⟨_, -, rfl⟩ := Option.map_eq_some_iff.1 hadd
      exact hle
    · obtain ⟨_, -, hadd⟩ := Option.bind_eq_some_iff.1 hadd
      simp only at hadd
      split at hadd
      · rw [Option.some.injEq] at hadd
        subst hadd
        split
        · exact hle
        · simp [Ring.next, Ring.top, Ring.entries]
      · obtain ⟨_, -, rfl⟩ := Option.map_eq_some_iff.1 hadd
        exact hle

/-- The entry at the cut is evicted and marked as in use. -/
theorem cellBodyAddOffset_start (h : CellRep s.mem slab r) (hshape : r.Shape l)
    (habove : r.above = x :: es)
    (hevict : removeAll r.dir [x] = some dir) (c : Checksum) (buffer : List UInt8) :
    ∃ s₁, cellBodyAddOffset (slab + 1019892) (cellAt slab) c buffer s =
        (if x.size = buffer.length then
          cellBodyAddInPlace (slab + 1019892) (cellAt slab) (slab + r.next) c buffer
        else cellBodyAddMerged (slab + 1019892) (cellAt slab) (slab + r.next) c buffer) s₁ ∧
      OpenRep s₁.mem slab r.next r.below x.span x.size es (liveCount r.below) (liveBytes r.below)
        dir ∧
      entryBits s₁.mem (slab + r.next) = ⟨0, 0, x.size, prevOf 0 r.below⟩ ∧
      ∀ t o, r.next ≤ t → Emits (AddEvent slab (Boundary slab r) t o) s s₁ := by
  have habove' : r.above = [x] ++ es := habove
  have hopen := h.opened hshape.room
  have hroom := hshape.room
  have htop := Ring.top_eq r habove'
  have hx := (hshape.valid x (by rw [Ring.entries, habove]; simp)).size_le
  obtain ⟨hcpos, hdpos⟩ := hshape.remains habove' (by simp) (List.prefix_refl _)
    (by rw [← htop]; exact hshape.lap (by rw [habove]; simp))
    (by simp only [span_cons, span_nil, Entry.span]; omega)
  simp only [span_cons, span_nil, Nat.add_zero] at htop
  rw [habove] at hopen
  obtain ⟨s₁, hs₁⟩ : ∃ s₁, s₁ = s.emit (.mark (.visit (slab + r.next))) := ⟨_, rfl⟩
  have hmem₁ : s₁.mem = s.mem := by rw [hs₁, Machine.mem_emit_mark]
  have hentry : EntryAt s.mem (slab + r.next) (prevOf 0 r.below) x := hopen.restSeg.1
  rw [← hmem₁] at hopen
  obtain ⟨s₂, hrun₂, h₂, hbody₂, hemits₂⟩ := cellBodyEvict_spec hopen hevict
    (removeAll_noFuller hevict).1 hcpos hdpos
  change cellBodyEvict (cellAt slab) (slab + r.next) s₁ = _ at hrun₂
  rw [Nat.zero_add] at h₂
  rw [hmem₁] at hbody₂
  obtain ⟨s₃, hs₃⟩ : ∃ s₃, s₃ = assigned s₂ .freeSpace (slab + r.next) 0 := ⟨_, rfl⟩
  have hbits₃ : entryBits s₃.mem (slab + r.next) = ⟨0, 0, x.size, prevOf 0 r.below⟩ := by
    rw [hs₃, entryBits_assigned, entryBits_congr (hbody₂.mono (by omega) (by
      rw [htop, Entry.span] at hroom
      omega)), hentry.bits]
    rfl
  refine ⟨s₃, ?_, ?_, hbits₃, fun t o ht => ?_⟩
  · rw [cellBodyAddOffset, load_bind, h.nextOffset]
    simp only [cellAt]
    rw [emit_bind, ← hs₁]
    refine (bind_ok hrun₂ _).trans ?_
    rw [assignField_bind, ← hs₃, load_bind, hbits₃]
  · rw [hs₃]
    refine h₂.congr fun hd => assigned_agree _ _ _ _ ?_
    rw [Entry.span] at hd
    rw [Ring.next]
    omega
  · have hvisit : Boundary slab r (slab + r.next) := ⟨r.below, r.above, rfl, rfl⟩
    have hemits₁ : Emits (AddEvent slab (Boundary slab r) t o) s s₁ := by
      rw [hs₁]
      exact visit_emits s hvisit
    have hemits₃ : Emits (Event.StoreIn .body (slab + r.next) (slab + r.next + 36)) s₂ s₃ := by
      rw [hs₃]
      exact assigned_emits s₂ (by omega) (by omega)
    exact (hemits₁.trans (hemits₂ _ _ _)).trans
      (hemits₃.mono fun _ hev => AddEvent.of_body hev (by omega) (by omega))

theorem cellBodyAddOffset_missing (h : CellRep s.mem slab r) (hshape : r.Shape l)
    (habove : r.above = x :: es) (hevict : removeAll r.dir [x] = none) (c : Checksum)
    (buffer : List UInt8) :
    ∃ s', cellBodyAddOffset (slab + 1019892) (cellAt slab) c buffer s = .error .always s' ∧
      ∀ o, Emits (AddEvent slab (Boundary slab r) r.top o) s s' := by
  have hopen := h.opened hshape.room
  rw [habove] at hopen
  obtain ⟨s₁, hs₁⟩ : ∃ s₁, s₁ = s.emit (.mark (.visit (slab + r.next))) := ⟨_, rfl⟩
  have hmem₁ : s₁.mem = s.mem := by rw [hs₁, Machine.mem_emit_mark]
  rw [← hmem₁] at hopen
  refine ⟨s₁, ?_, fun o => ?_⟩
  · rw [cellBodyAddOffset, load_bind, h.nextOffset]
    simp only [cellAt]
    rw [emit_bind, ← hs₁]
    exact bind_error (cellBodyEvict_abort hopen hevict) _
  · rw [hs₁]
    exact visit_emits s ⟨r.below, r.above, rfl, rfl⟩

theorem cellBodyAddOffset_spec (h : CellRep s.mem slab r) (hshape : r.Shape l) (he : e.IsChunk l)
    (hne : r.above ≠ []) (hhole : ∀ k, r.LeavesHole e k → k ≤ l.hole)
    (hadd : r.overwrite e = some r') :
    ∃ s', cellBodyAddOffset (slab + 1019892) (cellAt slab) e.checksum e.data s = .ok () s' ∧
      CellRep s'.mem slab r' ∧
      Emits (AddEvent slab (Boundary slab r) r'.top r'.dir.stack.length) s s' := by
  obtain ⟨x, es, habove⟩ := List.exists_cons_of_ne_nil hne
  have hbelow := overwrite_below hadd
  rw [Ring.overwrite, habove] at hadd
  simp only at hadd
  split at hadd
  · next hsize =>
      obtain ⟨dir, hevict, hadd⟩ := Option.bind_eq_some_iff.1 hadd
      obtain ⟨s₁, hrun, h₁, hbits, hemits₁⟩ :=
        cellBodyAddOffset_start h hshape habove hevict e.checksum e.data
      obtain ⟨⟨rest', dir'⟩, hmake, rfl⟩ := Option.map_eq_some_iff.1 hadd
      obtain ⟨s', hplace, hrep, hemits⟩ := cellBodyAddInPlace_spec hshape he habove hsize hevict
        h₁ hbits hmake
      rw [he.data_length, if_pos hsize, hplace] at hrun
      refine ⟨s', hrun, hrep, (hemits₁ _ _ hbelow).trans ?_⟩
      have htop : Ring.top ⟨r.below ++ [e], rest', dir'.add (r.place e)⟩ =
          r.next + x.span + span rest' := by
        simp only [Ring.top, Ring.entries, Ring.next, span_append, span_cons, span_nil, Entry.span,
          hsize, Nat.add_zero]
      rw [htop]
      exact hemits _
  · next hsize =>
      have htake := hadd
      rw [Ring.merge, show x :: (gather (e.size + 36) x.size es).2.1 =
        [x] ++ (gather (e.size + 36) x.size es).2.1 from rfl, removeAll_append,
        Option.bind_assoc] at htake
      obtain ⟨dir, hevict, -⟩ := Option.bind_eq_some_iff.1 htake
      obtain ⟨s₁, hrun, h₁, hbits, hemits₁⟩ :=
        cellBodyAddOffset_start h hshape habove hevict e.checksum e.data
      obtain ⟨s', hmerge, hrep, hemits⟩ := cellBodyAddMerged_spec hshape he habove
        (fun hrest => hhole _ ⟨x, es, habove, hsize, hrest, rfl⟩) hevict h₁ hbits hadd
      rw [he.data_length, if_neg hsize, hmerge] at hrun
      exact ⟨s', hrun, hrep, (hemits₁ _ _ hbelow).trans hemits⟩

theorem cellBodyAddOffset_abort (h : CellRep s.mem slab r) (hshape : r.Shape l) (he : e.IsChunk l)
    (hfind : r.dir.find e.checksum = none) (hne : r.above ≠ []) (hadd : r.overwrite e = none) :
    ∃ s', cellBodyAddOffset (slab + 1019892) (cellAt slab) e.checksum e.data s = .error .always s' ∧
      ∀ o, Emits (AddEvent slab (Boundary slab r) r.top o) s s' := by
  obtain ⟨x, es, habove⟩ := List.exists_cons_of_ne_nil hne
  have hnext : r.next ≤ r.top := by
    rw [Ring.next, Ring.top, Ring.entries, span_append]
    exact Nat.le_add_right _ _
  cases hevict : removeAll r.dir [x] with
  | none => exact cellBodyAddOffset_missing h hshape habove hevict e.checksum e.data
  | some dir =>
      obtain ⟨s₁, hrun, h₁, hbits, hemits₁⟩ :=
        cellBodyAddOffset_start h hshape habove hevict e.checksum e.data
      rw [he.data_length] at hrun
      rw [Ring.overwrite, habove] at hadd
      simp only at hadd
      split at hadd
      · next hsize =>
          rw [Ring.replace, hevict, Option.bind_some, Option.map_eq_none_iff] at hadd
          obtain ⟨s', hplace, hemits⟩ := cellBodyAddInPlace_abort hshape he hfind habove hsize hevict h₁
            hbits hadd
          rw [if_pos hsize, hplace] at hrun
          exact ⟨s', hrun, fun o => (hemits₁ _ _ hnext).trans (hemits _ _)⟩
      · next hsize =>
          obtain ⟨s', hmerge, hemits⟩ := cellBodyAddMerged_abort hshape he.isBuffer habove
            hevict h₁ hbits hadd
          rw [if_neg hsize, hmerge] at hrun
          exact ⟨s', hrun, fun o => (hemits₁ _ _ hnext).trans (hemits o)⟩

/-- The ends of an insertion that merges entries. -/
theorem cellBodyAddOffset_merged (h : CellRep s.mem slab r) (hshape : r.Shape l) (he : e.IsBuffer)
    (habove : r.above = x :: es) (hsize : x.size ≠ e.size) {s' : Store}
    (hrun : cellBodyAddOffset (slab + 1019892) (cellAt slab) e.checksum e.data s = .ok () s') :
    ∃ dir, removeAll r.dir (x :: (gather (e.size + 36) x.size es).2.1) = some dir ∧
      MergeEnds slab r x es e dir s s' := by
  cases hevict : removeAll r.dir [x] with
  | none =>
      obtain ⟨s₁, habort, -⟩ :=
        cellBodyAddOffset_missing h hshape habove hevict e.checksum e.data
      rw [habort] at hrun
      cases hrun
  | some dir₀ =>
      obtain ⟨s₁, hstart, h₁, hbits₁, hemits₁⟩ :=
        cellBodyAddOffset_start h hshape habove hevict e.checksum e.data
      rw [he.data_length, if_neg hsize] at hstart
      rw [hstart] at hrun
      obtain ⟨dir, htake, hends⟩ :=
        cellBodyAddMerged_outcome hshape he habove hevict h₁ hbits₁ hrun
      refine ⟨dir, htake, ?_⟩
      rcases hends with hstored | ⟨hrest, hfull, hrep, hemits⟩ | hsplit
      · exact Or.inl hstored
      · exact Or.inr (Or.inl ⟨hrest, hfull, hrep, (hemits₁ _ _ (Nat.le_refl _)).trans hemits⟩)
      · exact Or.inr (Or.inr hsplit)

theorem boundary_rewind (slab : Nat) (r : Ring) : Boundary slab r.rewind = Boundary slab r := by
  funext ptr
  simp only [Boundary, Ring.rewind_entries]

/-- The cut of a cell goes back to the start where nothing lies behind it. -/
theorem CellRep.rewound (h : CellRep s.mem slab r) (hroom : r.top + 36 * r.dir.stack.length ≤ 1019836)
    (habove : r.above = []) :
    CellRep (s.store32 .bodyOffsets (slab + 1019892 + 4) 0).mem slab r.rewind := by
  have hopen := (h.opened hroom).renext (v := 0) (by omega)
  rw [habove] at hopen
  rw [Ring.rewind, if_pos habove]
  obtain ⟨hbelow, -, htop, htopOffset, hnextOffset, hheader, -, -, -⟩ := hopen
  have hentries : Ring.entries ⟨[], r.below, r.dir⟩ = r.below := rfl
  constructor
  · exact hbelow
  · simpa [Ring.top, hentries, prevOf] using htop
  · simpa [Ring.top, hentries] using htopOffset
  · exact hnextOffset
  · simpa [hentries, liveCount, liveBytes] using hheader

theorem cellBodyPtr_cellAt (slab : Nat) : cellBodyPtr (cellAt slab).cellHeader = slab + 1019892 := by
  simp only [cellBodyPtr, cellAt, Nat.add_assoc, Nat.reduceAdd]

/-- An insertion that finds room at the top. -/
theorem cellBodyAdd_top (h : CellRep s.mem slab r) (hshape : r.Shape l) (habove : r.above = [])
    {c : Checksum} {buffer : List UInt8} {s' : Store}
    (hrun : cellBodyAddTop (slab + 1019892) (cellAt slab) c buffer s = .ok true s') :
    cellBodyAdd (slab + 1019892) (cellAt slab) c buffer s = .ok () s' := by
  have htop := (h.opened hshape.room).top.top
  rw [habove, span_nil, Nat.add_zero] at htop
  rw [cellBodyAdd, load_bind, h.nextOffset, load_bind]
  simp only [Ring.next, show (cellAt slab).slab = slab from rfl]
  rw [htop, if_pos rfl, bind_ok hrun, if_pos rfl, pure_run]

/-- An insertion that does not overwrites, from the bottom on if it was at the top. -/
theorem cellBodyAdd_offset (h : CellRep s.mem slab r) (hshape : r.Shape l) (he : e.IsBuffer)
    (hno : ¬(r.above = [] ∧ r.fits e)) :
    ∃ s', cellBodyAdd (slab + 1019892) (cellAt slab) e.checksum e.data s =
        cellBodyAddOffset (slab + 1019892) (cellAt slab) e.checksum e.data s' ∧
      CellRep s'.mem slab r.rewind ∧ ∀ visits t o, Emits (AddEvent slab visits t o) s s' := by
  have hopen := h.opened hshape.room
  by_cases habove : r.above = []
  · obtain ⟨below, above, dir⟩ := r
    simp only at habove
    subst habove
    have htop := hopen.top.top
    simp only [span_nil, Nat.add_zero] at htop
    -- full: the cut goes back to the bottom
    have hfull : bodyRoom (span below) dir < e.size + 72 :=
      Nat.lt_of_not_le fun hroom => hno ⟨rfl, (Ring.fits_iff _ _).2 hroom⟩
    obtain ⟨s₁, hrun, hmem, hemits⟩ := cellBodyAddTop_full hopen he.data_length he.size_le hfull
    rw [← hmem] at h
    refine ⟨s₁.store32 .bodyOffsets (slab + 1019892 + 4) 0, ?_,
      h.rewound hshape.room rfl, fun visits t o => (hemits _ _ _).trans
        ((Emits.store32_in s₁ (by omega) (by omega)).mono fun _ hev =>
          Or.inr (Or.inr (Or.inl hev)))⟩
    rw [cellBodyAdd, load_bind, hopen.nextOffset, load_bind]
    simp only [Ring.next, show (cellAt slab).slab = slab from rfl]
    rw [htop, if_pos rfl, bind_ok hrun, if_neg Bool.false_ne_true, store32_bind, cellBodyPtr_cellAt]
  · obtain ⟨x, es, hxes⟩ := List.exists_cons_of_ne_nil habove
    refine ⟨s, ?_, ?_, fun _ _ _ => Emits.refl _ s⟩
    · rw [hxes] at hopen
      have htop := hopen.restSeg.1.top
      rw [Nat.add_zero] at htop
      rw [cellBodyAdd, load_bind, h.nextOffset, load_bind]
      simp only [Ring.next, show (cellAt slab).slab = slab from rfl]
      rw [htop, if_neg Bool.false_ne_true]
    · rwa [Ring.rewind, if_neg habove]

/-- An insertion at the top is that of the ring. -/
theorem cellBodyAdd_push (h : CellRep s.mem slab r) (hshape : r.Shape l) (he : e.IsChunk l)
    (habove : r.above = []) (hfits : r.fits e = true) :
    ∃ s', cellBodyAdd (slab + 1019892) (cellAt slab) e.checksum e.data s = .ok () s' ∧
      CellRep s'.mem slab (r.push e) ∧
      ∀ visits, Emits (AddEvent slab visits (r.push e).top (r.push e).dir.stack.length) s s' := by
  have hsize := he.size_le
  have hopen := h.opened hshape.room
  obtain ⟨below, above, dir⟩ := r
  simp only at habove
  subst habove
  obtain ⟨s', hrun, hrep, hemits⟩ := cellBodyAddTop_fits hopen he.live he.data_length he.size_pos
    (by omega) ((Ring.fits_iff _ _).1 hfits)
  refine ⟨s', cellBodyAdd_top h hshape rfl hrun, cellRep_push he.live hrep rfl rfl, fun visits => ?_⟩
  rw [Ring.top, Ring.push_entries, span_append, span_cons, span_nil, Nat.add_zero]
  exact hemits visits

/-- An insertion into the body is that of the ring. -/
theorem cellBodyAdd_spec (h : CellRep s.mem slab r) (hshape : r.Shape l) (he : e.IsChunk l)
    (hhole : ¬(r.above = [] ∧ r.fits e) → ∀ k, r.rewind.LeavesHole e k → k ≤ l.hole)
    (hadd : r.add e = some r') :
    ∃ s', cellBodyAdd (slab + 1019892) (cellAt slab) e.checksum e.data s = .ok () s' ∧
      CellRep s'.mem slab r' ∧
      Emits (AddEvent slab (Boundary slab r) r'.top r'.dir.stack.length) s s' := by
  rw [Ring.add] at hadd
  by_cases hfits : r.above = [] ∧ r.fits e
  · rw [if_pos hfits, Option.some.injEq] at hadd
    subst hadd
    obtain ⟨s', hrun, hrep, hemits⟩ := cellBodyAdd_push h hshape he hfits.1 hfits.2
    exact ⟨s', hrun, hrep, hemits _⟩
  · rw [if_neg hfits] at hadd
    obtain ⟨s₁, hrun, hrep, hemits⟩ := cellBodyAdd_offset h hshape he.isBuffer hfits
    obtain ⟨s', hoffset, hrep', hemits'⟩ := cellBodyAddOffset_spec hrep
      (hshape.rewind he.isBuffer hfits) he (hshape.rewind_above_ne he.isBuffer hfits) (hhole hfits)
      hadd
    refine ⟨s', hrun.trans hoffset, hrep', (hemits _ _ _).trans ?_⟩
    rwa [boundary_rewind] at hemits'

theorem cellBodyAdd_abort (h : CellRep s.mem slab r) (hshape : r.Shape l) (he : e.IsChunk l)
    (hfind : r.dir.find e.checksum = none) (hadd : r.add e = none) :
    ∃ s', cellBodyAdd (slab + 1019892) (cellAt slab) e.checksum e.data s = .error .always s' ∧
      ∀ o, Emits (AddEvent slab (Boundary slab r) r.top o) s s' := by
  rw [Ring.add] at hadd
  by_cases hfits : r.above = [] ∧ r.fits e
  · rw [if_pos hfits] at hadd
    cases hadd
  · rw [if_neg hfits] at hadd
    rw [← Ring.rewind_dir r] at hfind
    obtain ⟨s₁, hrun, hrep, hemits⟩ := cellBodyAdd_offset h hshape he.isBuffer hfits
    obtain ⟨s', hoffset, hemits'⟩ := cellBodyAddOffset_abort hrep (hshape.rewind he.isBuffer hfits) he
      hfind (hshape.rewind_above_ne he.isBuffer hfits) hadd
    refine ⟨s', hrun.trans hoffset, fun o => (hemits _ _ _).trans ?_⟩
    have := hemits' o
    rwa [boundary_rewind, Ring.top, Ring.rewind_entries] at this

end Theo
