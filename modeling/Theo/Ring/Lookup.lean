import Theo.Ring.Outcome

set_option autoImplicit false

/-! # What a ring holds

`Ring.lookup r c` is the data stored under the checksum `c`. The index finds exactly these chunks,
at the offsets they lie at, and an insertion adds its own chunk and may forget others. -/

namespace Theo

open BucketIndex

namespace Ring

variable {l : Limits} {r r' : Ring} {e : Entry} {c : Checksum} {data : List UInt8}

/-- The data stored under a checksum. -/
def lookup (r : Ring) (c : Checksum) : Option (List UInt8) :=
  (r.entries.find? fun e => !e.free && e.checksum = c).map Entry.data

/-- A chunk of the ring and where it lies. -/
theorem mem_liveAt_iff {entry : CellDirEntry} : entry ∈ liveAt 0 r.entries ↔
    ∃ xs e ys, r.entries = xs ++ e :: ys ∧ e.free = false ∧
      entry = cellDirEntrySet e.checksum (span xs) := by
  constructor
  · intro hentry
    obtain ⟨xs, e, ys, hsplit, hlive, rfl⟩ := liveAt_mem_offset hentry
    exact ⟨xs, e, ys, hsplit, hlive, by rw [Nat.zero_add]⟩
  · rintro ⟨xs, e, ys, hsplit, hlive, rfl⟩
    rw [hsplit, liveAt_append, liveAt_live hlive, Nat.zero_add]
    exact List.mem_append_right _ List.mem_cons_self

/-- No two chunks have one checksum. -/
theorem Inv.unique (h : Inv l r) {e e' : Entry} (he : e ∈ r.entries) (he' : e' ∈ r.entries)
    (hlive : e.free = false) (hlive' : e'.free = false) (hc : e.checksum = e'.checksum) :
    e = e' := by
  obtain ⟨xs, ys, hsplit⟩ := List.append_of_mem he
  rw [hsplit] at he'
  have hnodup := h.index.nodup
  rw [hsplit, liveAt_append, liveAt_live hlive, List.map_append, List.map_cons] at hnodup
  rcases List.mem_append.1 he' with hmem | hmem
  · exfalso
    have hin : e'.checksum ∈ (liveAt 0 xs).map CellDirEntry.checksum := mem_liveAt_of_mem hmem hlive'
    rw [List.nodup_append] at hnodup
    exact hnodup.2.2 _ hin _ List.mem_cons_self hc.symm
  · rcases List.mem_cons.1 hmem with rfl | hmem
    · rfl
    · exfalso
      have hin := mem_liveAt_of_mem (a := 0 + span xs + e.span) hmem hlive'
      rw [List.nodup_append, List.nodup_cons] at hnodup
      exact hnodup.2.1.1 (hc ▸ hin)

theorem lookup_eq_none : r.lookup c = none ↔ r.Fresh c := by
  rw [lookup, Option.map_eq_none_iff, List.find?_eq_none, Fresh]
  constructor
  · intro hnone hmem
    obtain ⟨entry, hentry, rfl⟩ := List.mem_map.1 hmem
    obtain ⟨xs, e, ys, hsplit, hlive, rfl⟩ := mem_liveAt_iff.1 hentry
    exact hnone e (by rw [hsplit]; simp) (by simp [hlive, cellDirEntrySet])
  · intro hfresh e he hmatch
    simp only [Bool.and_eq_true, Bool.not_eq_true', decide_eq_true_eq] at hmatch
    obtain ⟨hlive, rfl⟩ := hmatch
    exact not_fresh_of_mem he hlive hfresh

theorem Inv.lookup_eq_some (h : Inv l r) : r.lookup c = some data ↔
    ∃ e ∈ r.entries, e.free = false ∧ e.checksum = c ∧ e.data = data := by
  rw [lookup, Option.map_eq_some_iff]
  constructor
  · rintro ⟨e, hfind, rfl⟩
    have hmatch := List.find?_some hfind
    simp only [Bool.and_eq_true, Bool.not_eq_true', decide_eq_true_eq] at hmatch
    exact ⟨e, List.mem_of_find?_eq_some hfind, hmatch.1, hmatch.2, rfl⟩
  · rintro ⟨e, he, hlive, rfl, rfl⟩
    cases hfind : r.entries.find? fun e' => !e'.free && e'.checksum = e.checksum with
    | none =>
        have := List.find?_eq_none.1 hfind e he
        simp [hlive] at this
    | some e' =>
        have hmatch := List.find?_some hfind
        simp only [Bool.and_eq_true, Bool.not_eq_true', decide_eq_true_eq] at hmatch
        have := h.unique (List.mem_of_find?_eq_some hfind) he hmatch.1 hlive hmatch.2
        exact ⟨e', rfl, by rw [this]⟩

/-- The index finds the chunk that `lookup` finds. -/
theorem Inv.find_eq (h : Inv l r) (c : Checksum) :
    (r.dir.find c = none ∧ r.lookup c = none) ∨
    ∃ xs e ys, r.entries = xs ++ e :: ys ∧ e.free = false ∧ e.checksum = c ∧
      r.dir.find c = some (cellDirEntrySet c (span xs)) ∧ r.lookup c = some e.data := by
  cases hfind : r.dir.find c with
  | none => exact Or.inl ⟨rfl, lookup_eq_none.2 ((Index.find_eq_none h.index).1 hfind)⟩
  | some entry =>
      right
      obtain ⟨hmem, hkey⟩ := (Index.find_eq_some h.index).1 hfind
      obtain ⟨xs, e, ys, hsplit, hlive, rfl⟩ := mem_liveAt_iff.1 hmem
      have hc : e.checksum = c := hkey
      subst hc
      exact ⟨xs, e, ys, hsplit, hlive, rfl, rfl,
        h.lookup_eq_some.2 ⟨e, by rw [hsplit]; simp, hlive, rfl, rfl⟩⟩

theorem Inv.find_eq_none (h : Inv l r) : r.dir.find c = none ↔ r.lookup c = none := by
  rw [lookup_eq_none, Fresh]
  exact Index.find_eq_none h.index

/-- After an insertion a checksum finds its chunk, or what it found before. -/
theorem Inv.lookup_add (h : Inv l r) (h' : Inv l r') (hfresh : r.Fresh e.checksum)
    (hadd : r.add e = some r') (hfind : r'.lookup c = some data) :
    c = e.checksum ∧ data = e.data ∨ c ≠ e.checksum ∧ r.lookup c = some data := by
  obtain ⟨y, hy, hlive, rfl, rfl⟩ := h'.lookup_eq_some.1 hfind
  rcases add_live hadd hy hlive with rfl | hy
  · exact Or.inl ⟨rfl, rfl⟩
  · refine Or.inr ⟨fun hc => ?_, h.lookup_eq_some.2 ⟨y, hy, hlive, rfl, rfl⟩⟩
    exact not_fresh_of_mem hy hlive (hc ▸ hfresh)

end Ring

end Theo
