import Theo.Ring.Invariant

set_option autoImplicit false

/-! # When an insertion aborts, and when it is lost

An overwriting insertion aborts only if it replaces the entry below the top by one of its size
while there is no room for an index entry (`add_eq_none`). It goes on without storing its chunk only
if it runs into the top and the room from the cut to the overflow records, those of the entries it
took the place of apart, does not hold it (`add_fresh`). -/

namespace Theo

open BucketIndex

/-! ## Overflow records and offsets -/

theorem liveAt_offset {a : Nat} {es : List Entry} {y : CellDirEntry} (hy : y ∈ liveAt a es)
    (hlt : a + span es < 2 ^ 31) : a ≤ y.offset ∧ y.offset < a + span es := by
  obtain ⟨xs, e, ys, rfl, -, rfl⟩ := liveAt_mem_offset hy
  simp only [span_append, span_cons, Entry.span] at hlt ⊢
  simp only [cellDirEntrySet]
  omega

/-- The overflow records of offsets in front of `lo` or from `hi` on. -/
def recordsBeside (dir : Dir) (lo hi : Nat) : Nat :=
  dir.stack.countP fun y => y.offset < lo ∨ hi ≤ y.offset

/-- Taking entries out of the index takes their overflow records, and no others. -/
theorem removeAll_over {A B : List CellDirEntry} {a : Nat} {es : List Entry} {dir dir' : Dir}
    (h : dir.Holds (A ++ liveAt a es ++ B)) (hremove : removeAll dir es = some dir') :
    dir'.stack.Perm (dir.stack.filter fun y => y.checksum ∉ (liveAt a es).map (·.checksum)) := by
  induction es generalizing a dir with
  | nil =>
      rw [removeAll, Option.some.injEq] at hremove
      subst hremove
      simp [liveAt]
  | cons e es ih =>
      rw [removeAll] at hremove
      by_cases hfree : e.free = true
      · rw [if_pos hfree] at hremove
        rw [liveAt_free hfree] at h ⊢
        exact ih h hremove
      · rw [if_neg hfree] at hremove
        rw [liveAt_live (by simpa using hfree)] at h ⊢
        have hperm : (A ++ cellDirEntrySet e.checksum a :: liveAt (a + e.span) es ++ B).Perm
            (cellDirEntrySet e.checksum a :: (A ++ liveAt (a + e.span) es ++ B)) := by
          simp only [List.append_assoc, List.cons_append]
          exact List.perm_middle
        obtain ⟨dir₁, hfirst, hdir₁⟩ := Index.remove_holds h hperm
        rw [show dir.remove e.checksum = some dir₁ from hfirst, Option.bind_some] at hremove
        have hover₁ := Index.remove_over h hfirst
        have hover := ih hdir₁ hremove
        refine hover.trans ((hover₁.filter _).trans ?_)
        rw [List.filter_filter]
        apply List.Perm.of_eq
        congr 1
        funext y
        simp only [List.map_cons, List.mem_cons, cellDirEntrySet]
        by_cases hy : y.checksum = e.checksum <;> simp [hy]

/-- Behind the removal of the entries from offset `a` on, the records beside them are left. -/
theorem removeAll_records {xs es ys : List Entry} {dir dir' : Dir}
    (h : dir.Holds (liveAt 0 xs ++ liveAt (span xs) es ++ liveAt (span xs + span es) ys))
    (hlt : span xs + span es + span ys < 2 ^ 31) (hremove : removeAll dir es = some dir') :
    dir'.stack.length = recordsBeside dir (span xs) (span xs + span es) := by
  rw [(removeAll_over h hremove).length_eq, recordsBeside, List.countP_eq_length_filter]
  congr 1
  apply List.filter_congr
  intro y hy
  have hmem := h.mem_of_over hy
  rw [decide_eq_decide]
  constructor
  · intro hout
    rcases List.mem_append.1 hmem with hmem | hmem
    · rcases List.mem_append.1 hmem with hmem | hmem
      · have := liveAt_offset hmem (by omega)
        omega
      · exact absurd (List.mem_map_of_mem hmem) hout
    · have := liveAt_offset hmem (by omega)
      omega
  · rintro hbeside hin
    obtain ⟨z, hz, hkey⟩ := List.mem_map.1 hin
    have hz' := List.mem_append_left (liveAt (span xs + span es) ys)
      (List.mem_append_right (liveAt 0 xs) hz)
    rw [← h.key_inj hz' hmem hkey] at hbeside
    have := liveAt_offset hz (by omega)
    omega

namespace Ring

variable {l : Limits} {r r' : Ring} {e x : Entry} {es : List Entry}

theorem Inv.records (h : Inv l r) {taken rest : List Entry} (habove : r.above = taken ++ rest)
    {dir : Dir} (hremove : removeAll r.dir taken = some dir) :
    dir.stack.length = recordsBeside r.dir r.next (r.next + span taken) := by
  have hindex := h.index
  rw [entries, habove, liveAt_append, liveAt_append, Nat.zero_add, ← List.append_assoc] at hindex
  have hroom := h.room
  rw [top_eq r habove, next] at hroom
  exact removeAll_records hindex (by omega) hremove

/-! ## Aborts -/

/-- An overwriting insertion that aborts: `e` has the size of the entry at the cut, which lies
directly below the top, and without that entry there is no room for an index entry. -/
def Aborts (r : Ring) (e : Entry) : Prop :=
  ∃ x, r.above = [x] ∧ x.size = e.size ∧
    1019836 < r.top + 36 * recordsBeside r.dir r.next (r.next + x.span) + 36

theorem Inv.overwrite_eq_none (h : Inv l r) (habove : r.above ≠ []) :
    r.overwrite e = none ↔ r.Aborts e := by
  obtain ⟨x, es, hxes⟩ := List.exists_cons_of_ne_nil habove
  have hxes' : r.above = [x] ++ es := hxes
  have hes := h.rest_live hxes' (by simp)
  have hroom := h.room
  rw [Aborts, Ring.overwrite, hxes]
  simp only
  split
  · next hsize =>
      obtain ⟨dir, hremove, hle, hdir⟩ := h.take_run hxes'
      have hrecords := h.records hxes' hremove
      rw [span_cons, span_nil, Nat.add_zero] at hrecords
      have hcount := hle.1
      rw [Ring.replace, hremove, Option.bind_some, Option.map_eq_none_iff,
        makeRoom_eq_none hdir hes, bodyRoom, hrecords]
      constructor
      · rintro ⟨hfull, rfl⟩
        exact ⟨x, rfl, hsize, by omega⟩
      · rintro ⟨x', hx', -, hfull⟩
        rw [List.cons.injEq] at hx'
        obtain ⟨rfl, rfl⟩ := hx'
        exact ⟨by omega, rfl⟩
  · next hsize =>
      refine iff_of_false (h.merge_ne_none hxes) ?_
      rintro ⟨x', hx', hsize', -⟩
      rw [List.cons.injEq] at hx'
      exact hsize (hx'.1 ▸ hsize')

theorem Inv.add_eq_none (h : Inv l r) (he : e.IsChunk l) :
    r.add e = none ↔ ¬(r.above = [] ∧ r.fits e) ∧ r.rewind.Aborts e := by
  rw [Ring.add]
  split
  · next hfits => simp [hfits]
  · next hfits =>
      rw [(h.rewind he hfits).overwrite_eq_none (h.rewind_above_ne he.isBuffer hfits)]
      exact (and_iff_right hfits).symm

/-! ## Lost insertions -/

/-- An overwriting insertion that stores nothing: the entries up to the top are too small for `e`,
and so is the room from the cut to the overflow records of the entries in front of it. -/
def Lost (r : Ring) (e : Entry) : Prop :=
  ∃ x es, r.above = x :: es ∧ x.size ≠ e.size ∧ r.top < r.next + e.size + 72 ∧
    1019836 < r.next + 36 * recordsBeside r.dir r.next r.top + e.size + 72

theorem mem_liveAt_of_mem {a : Nat} {ys : List Entry} (he : e ∈ ys) (hlive : e.free = false) :
    e.checksum ∈ (liveAt a ys).map CellDirEntry.checksum := by
  obtain ⟨xs, zs, rfl⟩ := List.append_of_mem he
  rw [liveAt_append, liveAt_live hlive]
  simp [cellDirEntrySet]

theorem not_fresh_of_mem (he : e ∈ r.entries) (hlive : e.free = false) : ¬ r.Fresh e.checksum :=
  fun hfresh => hfresh (mem_liveAt_of_mem he hlive)

/-- Merging that takes all entries has found too few bytes, or there is room for the entry. -/
theorem Inv.merge_fresh (h : Inv l r) (he : e.IsChunk l) (hfresh : r.Fresh e.checksum)
    (habove : r.above = x :: es) (hsize : x.size ≠ e.size) (hadd : r.merge x es e = some r') :
    r'.Fresh e.checksum ↔ r.Lost e := by
  have habove' := gather_above habove (e.size + 36)
  have hfree := gather_free (e.size + 36) x.size es
  have henough := gather_enough (e.size + 36) x.size es
  have hroom := h.room
  rw [Ring.merge] at hadd
  simp only at hadd
  generalize gather (e.size + 36) x.size es = merged at *
  obtain ⟨free, taken, rest⟩ := merged
  simp only at *
  have htop := top_eq r habove'
  obtain ⟨dir, hremove, hle, hdir⟩ := h.take_run habove'
  have hrecords := h.records habove' hremove
  rw [hremove, Option.bind_some] at hadd
  have hlost : r.Lost e ↔ r.top < r.next + e.size + 72 ∧
      1019836 < r.next + 36 * recordsBeside r.dir r.next r.top + e.size + 72 := by
    rw [Lost]
    constructor
    · rintro ⟨-, -, -, -, hshort⟩
      exact hshort
    · intro hshort
      exact ⟨x, es, habove, hsize, hshort⟩
  rw [hlost]
  cases rest with
  | nil =>
      -- the top moves down to the cut, where the chunk goes only if it fits
      rw [Option.some.injEq] at hadd
      subst hadd
      rw [span_nil, Nat.add_zero] at htop
      rw [← htop] at hrecords
      have hcount := hle.1
      simp only [span_cons, Entry.span] at htop
      split
      · next hfits =>
          have hfits : e.size + 72 ≤ bodyRoom r.next dir := (fits_iff _ _).1 hfits
          rw [bodyRoom, hrecords] at hfits
          exact iff_of_false (not_fresh_of_mem (by simp) he.live) (by omega)
      · next hfits =>
          have hfits : ¬ e.size + 72 ≤ bodyRoom r.next dir := fun hh => hfits ((fits_iff _ _).2 hh)
          rw [bodyRoom, hrecords] at hfits
          refine iff_of_true ?_ (by omega)
          have := fresh_sublist (q := 0) hfresh habove' (List.prefix_refl [])
          rw [liveAt, List.append_nil] at this
          simpa [Fresh, entries] using this
  | cons y ys =>
      -- something is left above: the chunk is always stored
      obtain ⟨⟨rest, dir'⟩, hmake, rfl⟩ := Option.map_eq_some_iff.1 hadd
      have henough := henough (List.cons_ne_nil y ys)
      refine iff_of_false (not_fresh_of_mem ?_ he.live) ?_
      · simp [entries]
      · simp only [span_cons, Entry.span] at htop
        omega

/-- The chunk is not in the cell after its insertion exactly when the insertion is lost. -/
theorem Inv.add_fresh (h : Inv l r) (he : e.IsChunk l) (hfresh : r.Fresh e.checksum)
    (hadd : r.add e = some r') :
    r'.Fresh e.checksum ↔ ¬(r.above = [] ∧ r.fits e) ∧ r.rewind.Lost e := by
  rw [Ring.add] at hadd
  split at hadd
  · next hfits =>
      rw [Option.some.injEq] at hadd
      subst hadd
      exact iff_of_false (not_fresh_of_mem (by simp) he.live) (fun hh => hh.1 hfits)
  · next hfits =>
      have hrewind := h.rewind he hfits
      rw [Fresh, ← rewind_entries] at hfresh
      rw [and_iff_right hfits]
      rw [Ring.overwrite] at hadd
      split at hadd
      · cases hadd
      · next x es habove =>
          split at hadd
          · next hsize =>
              obtain ⟨dir, -, hadd⟩ := Option.bind_eq_some_iff.1 hadd
              obtain ⟨⟨rest, dir'⟩, -, rfl⟩ := Option.map_eq_some_iff.1 hadd
              refine iff_of_false (not_fresh_of_mem ?_ he.live) ?_
              · simp [entries]
              · rintro ⟨x', es', habove', hne, -⟩
                rw [habove, List.cons.injEq] at habove'
                exact hne (habove'.1 ▸ hsize)
          · next hsize => exact hrewind.merge_fresh he hfresh habove hsize hadd

end Ring

end Theo
