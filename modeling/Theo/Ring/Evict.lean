import Theo.Ring.Lookup

set_option autoImplicit false

/-! # What an insertion evicts

An overwriting insertion takes the place of a run of entries, the shortest that is long enough, and
may give up the entry directly below the top for its index entry (`Evicts`). All other chunks stay
where they are. -/

namespace Theo

open BucketIndex

/-- Merging stops as soon as it has found enough: anything shorter was not. -/
theorem gather_shorter (required free : Nat) {es shorter : List Entry}
    (hpre : shorter <+: (gather required free es).2.1)
    (hne : shorter ≠ (gather required free es).2.1) : free + span shorter < required := by
  induction es generalizing free shorter with
  | nil => exact absurd (List.prefix_nil.1 hpre) hne
  | cons e es ih =>
      rw [gather] at hpre hne
      split at hpre
      · next hlt =>
          rw [if_pos hlt] at hne
          cases shorter with
          | nil => exact hlt
          | cons y shorter =>
              simp only [List.cons_prefix_cons] at hpre
              obtain ⟨rfl, hpre⟩ := hpre
              have hrest := ih (free + y.span) hpre fun heq => hne (congrArg (y :: ·) heq)
              rw [span_cons]
              omega
      · next hge =>
          rw [if_neg hge] at hne
          exact absurd (List.prefix_nil.1 hpre) hne

/-- An insertion of `size` bytes takes the place of the run `taken` at the front of `es`: of the
first entry if it has the size, and otherwise of the shortest run that is long enough, or of all
entries if there is none. The header of the first entry is not counted. -/
def Takes (size : Nat) (es taken : List Entry) : Prop :=
  match es with
  | [] => False
  | x :: _ =>
      if x.size = size then taken = [x]
      else
        taken <+: es ∧
        (∀ shorter, shorter <+: taken → shorter ≠ taken → span shorter - 36 < size + 36) ∧
        (span taken - 36 < size + 36 → taken = es)

theorem Takes.ne_nil {size : Nat} {es taken : List Entry} (h : Takes size es taken) : taken ≠ [] := by
  cases es with
  | nil => exact h.elim
  | cons x es =>
      rintro rfl
      rw [Takes] at h
      split at h
      · cases h
      · have hall := h.2.2 (by rw [span_nil]; omega)
        cases hall

theorem takes_gather {x : Entry} (es : List Entry) {size : Nat} (hsize : x.size ≠ size) :
    Takes size (x :: es) (x :: (gather (size + 36) x.size es).2.1) := by
  have hsplit := gather_split (size + 36) x.size es
  have hfree := gather_free (size + 36) x.size es
  rw [Takes, if_neg hsize]
  refine ⟨?_, ?_, ?_⟩
  · rw [List.cons_prefix_cons]
    exact ⟨rfl, _, hsplit.symm⟩
  · intro shorter hpre hne
    cases shorter with
    | nil =>
        rw [span_nil]
        omega
    | cons y shorter =>
        rw [List.cons_prefix_cons] at hpre
        obtain ⟨rfl, hpre⟩ := hpre
        have := gather_shorter (size + 36) y.size hpre fun heq => hne (congrArg (y :: ·) heq)
        rw [span_cons, Entry.span]
        omega
  · intro hlt
    rw [span_cons, Entry.span] at hlt
    have hnil := gather_short (size + 36) x.size es (by omega)
    rw [hnil, List.append_nil] at hsplit
    rw [← hsplit]

/-- What taking entries out of the index leaves of the overflow stack. -/
theorem removeAll_stack {a : Nat} {es : List Entry} {dir dir' : Dir}
    (h : removeAll dir es = some dir') : dir'.stack.length +
      Index.foundOnStack dir.inSlots ((liveAt a es).map CellDirEntry.checksum) = dir.stack.length := by
  induction es generalizing a dir with
  | nil =>
      rw [removeAll, Option.some.injEq] at h
      rw [h]
      rfl
  | cons e es ih =>
      rw [removeAll] at h
      by_cases hfree : e.free = true
      · rw [if_pos hfree] at h
        rw [liveAt_free hfree]
        exact ih h
      · rw [if_neg hfree] at h
        obtain ⟨dir₁, hremove, h⟩ := Option.bind_eq_some_iff.1 h
        have hrest := ih (a := a + e.span) h
        rw [liveAt_live (by simpa using hfree), List.map_cons,
          show (cellDirEntrySet e.checksum a).checksum = e.checksum from rfl, Index.foundOnStack]
        have hone : (dir.inSlots e.checksum = 0 ∧ dir₁.inSlots = dir.inSlots ∧
              dir₁.stack.length + 1 = dir.stack.length) ∨
            (dir.inSlots e.checksum ≠ 0 ∧ dir₁.inSlots =
                Function.update dir.inSlots e.checksum (dir.inSlots e.checksum - 1) ∧
              dir₁.stack = dir.stack) := Index.remove_inSlots hremove
        rcases hone with ⟨hnone, hslots, hstack⟩ | ⟨hsome, hslots, hstack⟩
        · rw [if_pos hnone]
          rw [hslots] at hrest
          omega
        · rw [if_neg hsome, ← hstack]
          rwa [hslots] at hrest

namespace Ring

variable {l : Limits} {r r' : Ring} {e x : Entry} {es : List Entry}

/-- The room above the top once the overflow records of the `n` bytes behind the cut are gone. -/
def roomBeside (r : Ring) (n : Nat) : Nat :=
  1019836 - (r.top + 36 * recordsBeside r.dir r.next (r.next + n))

/-- An insertion turns `r` into `r'`, the cut being where it overwrites: `new` takes the place of
the run `taken`, and the entry `gone` directly below the top is given up where there is one and no
room for an index entry. -/
structure Evicts (r : Ring) (e : Entry) (r' : Ring) (taken rest gone new : List Entry) : Prop where
  split : r.above = taken ++ (rest ++ gone)
  takes : Takes e.size r.above taken
  given : gone = [] ∧ (rest = [] ∨ 36 ≤ r.roomBeside (span taken)) ∨
    ∃ y, gone = [y] ∧ r.roomBeside (span taken) < 36
  entries : r'.entries = r.below ++ (new ++ rest)
  fresh_or_free : ∀ y ∈ new, y = e ∨ y.free = true
  aligned : rest ≠ [] → span new = span taken

/-- The entry that making room behind the run `taken` gives up. -/
theorem Inv.room_given (h : Inv l r) {taken rest rest' : List Entry} {dir dir' : Dir}
    (habove : r.above = taken ++ rest) (hne : taken ≠ []) (htake : removeAll r.dir taken = some dir)
    (hmake : makeRoom r.top dir rest = some (rest', dir')) :
    ∃ gone, rest = rest' ++ gone ∧
      (gone = [] ∧ 36 ≤ r.roomBeside (span taken) ∨
        ∃ y, gone = [y] ∧ r.roomBeside (span taken) < 36) := by
  have hroom : r.roomBeside (span taken) = bodyRoom r.top dir := by
    rw [roomBeside, ← h.records habove htake, bodyRoom]
  obtain ⟨dir₀, htake₀, -, hdir⟩ := h.take_run habove
  rw [htake, Option.some.injEq] at htake₀
  subst htake₀
  rw [hroom]
  rcases makeRoom_cases r.top hdir (h.rest_live habove hne) with ⟨hfree, hmake'⟩ |
      ⟨-, -, hmake'⟩ | ⟨rest₁, y, dir₁, hfull, rfl, -, hmake', -, -⟩
  · rw [hmake', Option.some.injEq, Prod.mk.injEq] at hmake
    exact ⟨[], by rw [hmake.1, List.append_nil], Or.inl ⟨rfl, hfree⟩⟩
  · rw [hmake'] at hmake
    cases hmake
  · rw [hmake', Option.some.injEq, Prod.mk.injEq] at hmake
    exact ⟨[y], by rw [hmake.1], Or.inr ⟨y, rfl, hfull⟩⟩

theorem Inv.replace_evicts (h : Inv l r) (habove : r.above = x :: es) (hsize : x.size = e.size)
    (hadd : r.replace x es e = some r') : ∃ rest gone, Evicts r e r' [x] rest gone [e] := by
  have habove' : r.above = [x] ++ es := habove
  obtain ⟨dir, hremove, hadd⟩ := Option.bind_eq_some_iff.1 hadd
  obtain ⟨⟨rest, dir'⟩, hmake, rfl⟩ := Option.map_eq_some_iff.1 hadd
  obtain ⟨gone, rfl, hgiven⟩ := h.room_given habove' (by simp) hremove hmake
  refine ⟨rest, gone, ?_⟩
  constructor
  · exact habove
  · rw [habove, Takes, if_pos hsize]
  · rcases hgiven with ⟨hnil, hroom⟩ | hone
    · exact Or.inl ⟨hnil, Or.inr hroom⟩
    · exact Or.inr hone
  · simp only [Ring.entries, List.append_assoc]
  · intro y hy
    exact Or.inl (List.mem_singleton.1 hy)
  · intro _
    simp only [span_cons, span_nil, Entry.span, hsize]

theorem Inv.merge_evicts (h : Inv l r) (habove : r.above = x :: es) (hsize : x.size ≠ e.size)
    (hadd : r.merge x es e = some r') : ∃ taken rest gone new, Evicts r e r' taken rest gone new := by
  have habove' := gather_above habove (e.size + 36)
  have htakes := takes_gather es hsize
  have hfree := gather_free (e.size + 36) x.size es
  have henough := gather_enough (e.size + 36) x.size es
  obtain ⟨dir, hremove, hadd⟩ := Option.bind_eq_some_iff.1 hadd
  simp only at hadd
  generalize gather (e.size + 36) x.size es = merged at *
  obtain ⟨free, taken, rest⟩ := merged
  simp only at *
  cases rest with
  | nil =>
      rw [Option.some.injEq] at hadd
      -- the run ends at the top: the entry goes to the cut or is lost
      refine ⟨x :: taken, [], [], r'.entries.drop r.below.length, ?_⟩
      have hentries : r'.entries = r.below ++ [e] ∨ r'.entries = r.below := by
        rw [← hadd]
        split
        · exact Or.inl (push_entries _ e)
        · exact Or.inr (List.append_nil _)
      constructor
      · exact habove'
      · rw [habove]
        exact htakes
      · exact Or.inl ⟨rfl, Or.inl rfl⟩
      · rcases hentries with hentries | hentries <;> simp [hentries]
      · intro y hy
        rcases hentries with hentries | hentries
        · rw [hentries, List.drop_left] at hy
          exact Or.inl (List.mem_singleton.1 hy)
        · simp [hentries] at hy
      · intro hne
        exact absurd rfl hne
  | cons y ys =>
      obtain ⟨⟨rest', dir'⟩, hmake, rfl⟩ := Option.map_eq_some_iff.1 hadd
      obtain ⟨gone, hrest, hgiven⟩ := h.room_given habove' (by simp) hremove hmake
      have henough := henough (List.cons_ne_nil y ys)
      refine ⟨x :: taken, rest', gone, [e, Entry.hole (free - (e.size + 36))], ?_⟩
      constructor
      · rw [← hrest]
        exact habove'
      · rw [habove]
        exact htakes
      · rcases hgiven with ⟨hnil, hroom⟩ | hone
        · exact Or.inl ⟨hnil, Or.inr hroom⟩
        · exact Or.inr hone
      · simp only [Ring.entries, List.append_assoc, List.cons_append, List.nil_append]
      · intro z hz
        rcases List.mem_cons.1 hz with rfl | hz
        · exact Or.inl rfl
        · rw [List.mem_singleton.1 hz]
          exact Or.inr rfl
      · intro _
        simp only [span_cons, span_nil, Entry.span, Entry.hole]
        omega

/-- An insertion that does not go to the top evicts a run, and at most one entry more. -/
theorem Inv.add_evicts (h : Inv l r) (he : e.IsChunk l) (hno : ¬(r.above = [] ∧ r.fits e))
    (hadd : r.add e = some r') :
    ∃ taken rest gone new, Evicts r.rewind e r' taken rest gone new := by
  have hrewind := h.rewind he hno
  rw [Ring.add, if_neg hno, Ring.overwrite] at hadd
  split at hadd
  · cases hadd
  · next x es habove =>
      split at hadd
      · next hsize =>
          obtain ⟨rest, gone, hevicts⟩ := hrewind.replace_evicts habove hsize hadd
          exact ⟨[x], rest, gone, [e], hevicts⟩
      · next hsize => exact hrewind.merge_evicts habove hsize hadd

/-- Overwriting from the cut on, `e` takes the place of all entries up to the top, and is lost, for the
room that this makes does not hold it. -/
def Drops (r : Ring) (e : Entry) : Prop :=
  ∃ x es dir, r.above = x :: es ∧ x.size ≠ e.size ∧ (gather (e.size + 36) x.size es).2.2 = [] ∧
    removeAll r.dir (x :: (gather (e.size + 36) x.size es).2.1) = some dir ∧
    ¬fits ⟨r.below, [], dir⟩ e = true

/-- Where an insertion puts its chunk, and the hole behind it if there is one. -/
theorem add_layout (hadd : r.add e = some r') :
    (r.above = [] ∧ r.fits e ∧ r'.entries = r.below ++ [e]) ∨
    (¬(r.above = [] ∧ r.fits e) ∧
      ((∃ k rest, r.rewind.LeavesHole e k ∧
          r'.entries = r.rewind.below ++ e :: Entry.hole k :: rest) ∨
        (∀ k, ¬ r.rewind.LeavesHole e k) ∧
          (r.rewind.Drops e ∨ ∃ rest, r'.entries = r.rewind.below ++ e :: rest))) := by
  rw [Ring.add] at hadd
  split at hadd
  · next hfits =>
      rw [Option.some.injEq] at hadd
      exact Or.inl ⟨hfits.1, hfits.2, by rw [← hadd, push_entries]⟩
  · next hno =>
      refine Or.inr ⟨hno, ?_⟩
      generalize r.rewind = r at hadd
      rw [Ring.overwrite] at hadd
      split at hadd
      · cases hadd
      · next x es habove =>
          have hnone : x.size = e.size ∨ (gather (e.size + 36) x.size es).2.2 = [] →
              ∀ k, ¬ r.LeavesHole e k := by
            rintro hnone k ⟨x', es', habove', hsize, hrest, -⟩
            rw [habove, List.cons.injEq] at habove'
            obtain ⟨rfl, rfl⟩ := habove'
            rcases hnone with heq | hnil
            · exact hsize heq
            · exact hrest hnil
          split at hadd
          · next hsize =>
              obtain ⟨dir, -, hadd⟩ := Option.bind_eq_some_iff.1 hadd
              obtain ⟨⟨rest, dir'⟩, -, rfl⟩ := Option.map_eq_some_iff.1 hadd
              refine Or.inr ⟨hnone (Or.inl hsize), Or.inr ⟨rest, ?_⟩⟩
              simp only [entries, List.append_assoc, List.singleton_append]
          · next hsize =>
              obtain ⟨dir, htake, hadd⟩ := Option.bind_eq_some_iff.1 hadd
              simp only at hadd
              split at hadd
              · next hrest =>
                  refine Or.inr ⟨hnone (Or.inr hrest), ?_⟩
                  rw [Option.some.injEq] at hadd
                  rw [← hadd]
                  split
                  · exact Or.inr ⟨[], push_entries _ e⟩
                  · next hno => exact Or.inl ⟨x, es, dir, habove, hsize, hrest, htake, hno⟩
              · next z zs hrest =>
                  obtain ⟨⟨rest, dir'⟩, -, rfl⟩ := Option.map_eq_some_iff.1 hadd
                  refine Or.inl ⟨_, rest, ⟨x, es, habove, hsize, by rw [hrest]; simp, rfl⟩, ?_⟩
                  simp only [entries, List.append_assoc, List.singleton_append]
                  rfl

/-- What was evicted is in the ring no more. -/
theorem Evicts.fresh {taken rest gone new : List Entry} (hevicts : Evicts r e r' taken rest gone new)
    (h : Inv l r) (hfresh : r.Fresh e.checksum) {c : Checksum} {a b : Nat}
    (hc : c ∈ (liveAt a taken ++ liveAt b gone).map CellDirEntry.checksum) : r'.Fresh c := by
  have hnodup := h.index.nodup
  rw [Ring.entries, hevicts.split] at hnodup
  simp only [liveAt_append, List.map_append] at hnodup hc
  have hc' : c ∈ (liveAt 0 r.entries).map CellDirEntry.checksum := by
    rw [Ring.entries, hevicts.split]
    simp only [liveAt_append, List.map_append, List.mem_append]
    rw [liveAt_checksums a (0 + span r.below), liveAt_checksums b
      (0 + span r.below + span taken + span rest)] at hc
    rcases List.mem_append.1 hc with hc | hc
    · exact Or.inr (Or.inl hc)
    · exact Or.inr (Or.inr (Or.inr hc))
  rw [liveAt_checksums a (0 + span r.below), liveAt_checksums b
    (0 + span r.below + span taken + span rest)] at hc
  intro hmem
  obtain ⟨entry, hentry, rfl⟩ := List.mem_map.1 hmem
  obtain ⟨xs, y, ys, hsplit, hlive, rfl⟩ := mem_liveAt_iff.1 hentry
  have hy : y ∈ r'.entries := by rw [hsplit]; simp
  simp only [cellDirEntrySet] at hc hc'
  rw [List.nodup_append, List.nodup_append, List.nodup_append] at hnodup
  obtain ⟨-, ⟨-, ⟨-, -, hrestGone⟩, htakenRest⟩, hbelow⟩ := hnodup
  rw [hevicts.entries, List.mem_append, List.mem_append] at hy
  rcases hy with hy | hy | hy
  · have hin := mem_liveAt_of_mem (a := 0) hy hlive
    refine hbelow _ hin _ ?_ rfl
    rcases List.mem_append.1 hc with hc | hc
    · exact List.mem_append_left _ hc
    · exact List.mem_append_right _ (List.mem_append_right _ hc)
  · rcases hevicts.fresh_or_free y hy with rfl | hfree
    · exact hfresh hc'
    · rw [hlive] at hfree
      cases hfree
  · have hin := mem_liveAt_of_mem (a := 0 + span r.below + span taken) hy hlive
    rcases List.mem_append.1 hc with hc | hc
    · exact htakenRest _ hc _ (List.mem_append_left _ hin) rfl
    · exact hrestGone _ hin _ hc rfl

end Ring

end Theo
