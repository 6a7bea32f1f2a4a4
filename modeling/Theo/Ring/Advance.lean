import Theo.Ring.Evict

set_option autoImplicit false

/-! # How the cut goes round

An insertion moves the cut on by the length of its chunk, over the entries that it takes the place
of (`Overwrites`), and at the end of a lap back to the start. A lap ends only where the body is nearly
full (`Full`), and it stays so from then on. An insertion that stores nothing ends a lap, so that a
second attempt stores the chunk (`Inv.add_again`). -/

namespace Theo

open BucketIndex

namespace Ring

variable {r r' : Ring} {e x : Entry} {es : List Entry} {c : Checksum}

/-- Overwriting turns `r` into `r'`: the run `taken` behind the cut leaves, and the entry `gone`
below the top if there is no room for an index entry. In front of the cut comes `stored`, behind it
the `holes` that are left of the run, and the `rest`. -/
structure Overwrites (r : Ring) (e : Entry) (r' : Ring)
    (taken rest gone holes stored : List Entry) : Prop where
  split : r.above = taken ++ (rest ++ gone)
  taken_ne : taken ≠ []
  taken_le : span taken ≤ e.span + 24648
  given : gone = [] ∨ ∃ y, gone = [y] ∧ bodyRoom r.top r.dir < 36
  below : r'.below = r.below ++ stored
  above : r'.above = holes ++ rest
  stored_or_lost : stored = [e] ∨ stored = [] ∧ r'.above = [] ∧ gone = []
  holes_free : ∀ y ∈ holes, y.free = true
  aligned : r'.above ≠ [] → span stored + span holes = span taken

theorem bodyRoom_le_roomBeside (r : Ring) (n : Nat) : bodyRoom r.top r.dir ≤ r.roomBeside n := by
  have hcount : recordsBeside r.dir r.next (r.next + n) ≤ r.dir.stack.length :=
    List.countP_le_length
  rw [bodyRoom, roomBeside]
  omega

/-- The entry that is given up for room, as the state in front of the insertion has it. -/
theorem Inv.room_given_up (h : Inv chunkerLimits r) {taken rest rest' : List Entry} {dir dir' : Dir}
    (habove : r.above = taken ++ rest) (hne : taken ≠ []) (htake : removeAll r.dir taken = some dir)
    (hmake : makeRoom r.top dir rest = some (rest', dir')) :
    ∃ gone, rest = rest' ++ gone ∧ (gone = [] ∨ ∃ y, gone = [y] ∧ bodyRoom r.top r.dir < 36) := by
  obtain ⟨gone, hrest, hgiven⟩ := h.room_given habove hne htake hmake
  refine ⟨gone, hrest, ?_⟩
  rcases hgiven with ⟨hnil, -⟩ | ⟨y, hone, hroom⟩
  · exact Or.inl hnil
  · exact Or.inr ⟨y, hone, Nat.lt_of_le_of_lt (r.bodyRoom_le_roomBeside _) hroom⟩

theorem Inv.replace_overwrites (h : Inv chunkerLimits r) (habove : r.above = x :: es)
    (hsize : x.size = e.size) (hadd : r.replace x es e = some r') :
    ∃ rest gone, Overwrites r e r' [x] rest gone [] [e] := by
  have habove' : r.above = [x] ++ es := habove
  obtain ⟨dir, hremove, hadd⟩ := Option.bind_eq_some_iff.1 hadd
  obtain ⟨⟨rest, dir'⟩, hmake, rfl⟩ := Option.map_eq_some_iff.1 hadd
  obtain ⟨gone, rfl, hgiven⟩ := h.room_given_up habove' (by simp) hremove hmake
  have hspan : span [x] = e.span := by simp only [span_cons, span_nil, Entry.span, hsize, Nat.add_zero]
  refine ⟨rest, gone, ?_⟩
  constructor
  · exact habove
  · simp
  · omega
  · exact hgiven
  · rfl
  · rfl
  · exact Or.inl rfl
  · simp
  · intro _
    rw [hspan, span_cons, span_nil, Nat.add_zero]

/-- A run that is merged is little longer than it needs to be. -/
theorem Shape.gathered_le (h : Shape chunkerLimits r) (habove : r.above = x :: es) (e : Entry) :
    span (x :: (gather (e.size + 36) x.size es).2.1) ≤ e.span + 24648 := by
  have hvalid : ∀ y ∈ x :: es, y.Valid chunkerLimits := fun y hy =>
    h.valid y (List.mem_append_right _ (habove ▸ hy))
  have hx : x.size ≤ 24612 := by
    rcases hvalid x List.mem_cons_self with hchunk | ⟨-, hle⟩
    · have hmax : x.size ≤ 24576 := hchunk.le_max
      omega
    · exact hle
  have hes : ∀ y ∈ es, y.span ≤ 24612 := by
    intro y hy
    have hlive := h.above_live y (by rw [habove]; exact hy)
    have hmax : y.size ≤ 24576 := ((hvalid y (List.mem_cons_of_mem _ hy)).isChunk hlive).le_max
    rw [Entry.span]
    omega
  have hle := gather_le (e.size + 36) x.size hes
  rw [gather_free] at hle
  rw [span_cons, Entry.span, Entry.span]
  omega

theorem Inv.merge_overwrites (h : Inv chunkerLimits r) (habove : r.above = x :: es)
    (hadd : r.merge x es e = some r') :
    ∃ taken rest gone holes stored, Overwrites r e r' taken rest gone holes stored := by
  have habove' := gather_above habove (e.size + 36)
  have htaken := h.toShape.gathered_le habove e
  have hfree := gather_free (e.size + 36) x.size es
  have henough := gather_enough (e.size + 36) x.size es
  obtain ⟨dir, hremove, hadd⟩ := Option.bind_eq_some_iff.1 hadd
  simp only at hadd
  generalize gather (e.size + 36) x.size es = merged at *
  obtain ⟨free, taken, rest⟩ := merged
  simp only at *
  cases rest with
  | nil =>
      -- the run ends at the top: nothing is left behind the cut
      rw [Option.some.injEq] at hadd
      have hr' : r'.above = [] ∧ ∃ stored, r'.below = r.below ++ stored ∧
          (stored = [e] ∨ stored = []) := by
        rw [← hadd]
        split
        · exact ⟨rfl, [e], rfl, Or.inl rfl⟩
        · exact ⟨rfl, [], (List.append_nil _).symm, Or.inr rfl⟩
      obtain ⟨hnil, stored, hbelow, hstored⟩ := hr'
      refine ⟨x :: taken, [], [], [], stored, ?_⟩
      constructor
      · exact habove'
      · simp
      · exact htaken
      · exact Or.inl rfl
      · exact hbelow
      · exact hnil
      · rcases hstored with rfl | rfl
        · exact Or.inl rfl
        · exact Or.inr ⟨rfl, hnil, rfl⟩
      · simp
      · intro hne
        exact absurd hnil hne
  | cons y ys =>
      obtain ⟨⟨rest', dir'⟩, hmake, rfl⟩ := Option.map_eq_some_iff.1 hadd
      obtain ⟨gone, hrest, hgiven⟩ := h.room_given_up habove' (by simp) hremove hmake
      have henough := henough (List.cons_ne_nil y ys)
      refine ⟨x :: taken, rest', gone, [Entry.hole (free - (e.size + 36))], [e], ?_⟩
      constructor
      · rw [← hrest]
        exact habove'
      · simp
      · exact htaken
      · exact hgiven
      · rfl
      · rfl
      · exact Or.inl rfl
      · intro z hz
        rw [List.mem_singleton.1 hz]
        rfl
      · intro _
        simp only [span_cons, span_nil, Entry.span, Entry.hole]
        omega

/-- An insertion goes to the top where there is room, and otherwise overwrites. -/
theorem Inv.add_moves (h : Inv chunkerLimits r) (he : e.IsChunk chunkerLimits)
    (hadd : r.add e = some r') :
    (r.above = [] ∧ r.fits e ∧ r' = r.push e) ∨
    (¬(r.above = [] ∧ r.fits e) ∧
      ∃ taken rest gone holes stored, Overwrites r.rewind e r' taken rest gone holes stored) := by
  rw [Ring.add] at hadd
  split at hadd
  · next hfits =>
      rw [Option.some.injEq] at hadd
      exact Or.inl ⟨hfits.1, hfits.2, hadd.symm⟩
  · next hno =>
      have hrewind := h.rewind he hno
      refine Or.inr ⟨hno, ?_⟩
      rw [Ring.overwrite] at hadd
      split at hadd
      · cases hadd
      · next x es habove =>
          split at hadd
          · next hsize =>
              obtain ⟨rest, gone, hoverwrites⟩ := hrewind.replace_overwrites habove hsize hadd
              exact ⟨[x], rest, gone, [], [e], hoverwrites⟩
          · exact hrewind.merge_overwrites habove hadd

section Laps

variable {taken rest gone holes stored : List Entry}

theorem Overwrites.above_ne (h : Overwrites r e r' taken rest gone holes stored) :
    r.above ≠ [] := by
  rw [h.split]
  simp [h.taken_ne]

theorem Overwrites.top_eq (h : Overwrites r e r' taken rest gone holes stored) :
    r.top = r.next + span taken + span rest + span gone ∧
      r'.top = r.next + span stored + span holes + span rest := by
  rw [top, top, entries, entries, h.split, h.below, h.above, next]
  simp only [span_append]
  omega

/-- The entry given up is a chunk. -/
theorem Overwrites.gone_le (h : Overwrites r e r' taken rest gone holes stored)
    (hinv : Inv chunkerLimits r) : span gone ≤ 24612 := by
  rcases h.given with rfl | ⟨y, rfl, -⟩
  · exact Nat.zero_le _
  · have hy : y ∈ r.above := by rw [h.split]; simp
    have hlive := hinv.rest_live h.split h.taken_ne y (by simp)
    have hmax : y.size ≤ 24576 :=
      ((hinv.valid y (List.mem_append_right _ hy)).isChunk hlive).le_max
    simp only [span_cons, span_nil, Entry.span]
    omega

/-! ## Laps -/

/-- Once something lies behind the cut, the body is nearly full. -/
def Full (r : Ring) : Prop := r.above ≠ [] → 977000 ≤ r.top

theorem Shape.over_top (h : Shape chunkerLimits r) : 2085 * r.dir.stack.length ≤ r.top := by
  have hover := over_le r.entries [] (by simpa [liveCount] using h.count) h.valid (by simp)
  rwa [span_nil, Nat.add_zero] at hover

/-- A lap ends where the next chunk does not fit any more. -/
theorem Inv.rewind_full (h : Inv chunkerLimits r) (he : e.IsChunk chunkerLimits) (hfull : r.Full)
    (hno : ¬(r.above = [] ∧ r.fits e)) : r.rewind.Full := by
  rw [Full, top, rewind_entries]
  intro _
  by_cases habove : r.above = []
  · have hroom : bodyRoom r.next r.dir < e.size + 72 := by
      have hnofit : ¬ r.fits e = true := fun hfits => hno ⟨habove, hfits⟩
      rwa [fits_iff, Nat.not_le] at hnofit
    have htop : r.top = r.next := by rw [top, next, entries, habove, List.append_nil]
    have hover := h.over_top
    have hmax : e.size ≤ 24576 := he.le_max
    rw [bodyRoom] at hroom
    show 977000 ≤ r.top
    omega
  · exact hfull habove

theorem Overwrites.full (h : Overwrites r e r' taken rest gone holes stored)
    (hinv : Inv chunkerLimits r) (hfull : r.Full) : r'.Full := by
  intro habove'
  have htop := hfull h.above_ne
  obtain ⟨htop_eq, htop_eq'⟩ := h.top_eq
  have haligned := h.aligned habove'
  have hgone := h.gone_le hinv
  have hover := hinv.over_top
  rcases h.given with rfl | ⟨y, rfl, hroom⟩
  · rw [span_nil] at htop_eq
    omega
  · -- an entry is given up only where the records reach down to the top
    rw [bodyRoom] at hroom
    omega

theorem Inv.add_full (h : Inv chunkerLimits r) (he : e.IsChunk chunkerLimits) (hfull : r.Full)
    (hadd : r.add e = some r') : r'.Full := by
  rcases h.add_moves he hadd with ⟨-, -, rfl⟩ | ⟨hno, taken, rest, gone, holes, stored, hover⟩
  · intro hne
    exact absurd rfl hne
  · exact hover.full (h.rewind he hno) (h.rewind_full he hfull hno)

end Laps

end Ring

end Theo
