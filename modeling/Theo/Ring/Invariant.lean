import Theo.Ring.Basic

set_option autoImplicit false

/-! # The invariant of the ring

Chunks have sizes within bounds, only the first entry behind the cut may be a hole, the entries and
the overflow records fit below the header, and the index has as many entries as there are chunks
(`Shape`). Once something lies behind the cut the body is nearly full, which is why no removal
empties a cell. Every insertion that does not abort keeps this. As long as the counters of the index
are exact, it also holds the chunks (`Inv`). -/

namespace Theo

open BucketIndex

/-- Bounds on the sizes of chunks and of a hole; sizes are stored in 15 bits. -/
structure Limits where
  min : Nat
  max : Nat
  hole : Nat
  min_pos : 1 ≤ min
  max_le : max ≤ 32767
  hole_le : hole ≤ 32767

/-- The chunks a chunker emits, and the largest hole that they leave. -/
def chunkerLimits : Limits := ⟨2049, 24576, 24612, by decide, by decide, by decide⟩

/-- Chunks of any size up to the largest that a chunker emits. -/
def byteLimits : Limits := ⟨1, 24576, 24612, by decide, by decide, by decide⟩

/-- Chunks and holes of any length that can be stored. -/
def lengthLimits : Limits := ⟨1, 32767, 32767, by decide, by decide, by decide⟩

/-- A chunk within the limits. -/
structure Entry.IsChunk (l : Limits) (e : Entry) : Prop where
  live : e.free = false
  min_le : l.min ≤ e.size
  le_max : e.size ≤ l.max
  data_length : e.data.length = e.size

/-- A chunk of any length that `chunk_set` accepts. The longest of them is too long for its entry. -/
structure Entry.IsBuffer (e : Entry) : Prop where
  live : e.free = false
  size_pos : 1 ≤ e.size
  size_le : e.size ≤ 32768
  data_length : e.data.length = e.size

/-- A chunk or a hole within the limits. -/
def Entry.Valid (l : Limits) (e : Entry) : Prop := e.IsChunk l ∨ e.free = true ∧ e.size ≤ l.hole

section

variable {l : Limits} {e x : Entry} {es xs ys : List Entry}

theorem Entry.Valid.isChunk (h : e.Valid l) (hlive : e.free = false) : e.IsChunk l := by
  rcases h with h | ⟨hfree, -⟩
  · exact h
  · rw [hlive] at hfree
    cases hfree

theorem Entry.IsChunk.size_le (h : e.IsChunk l) : e.size ≤ 32767 := Nat.le_trans h.le_max l.max_le

theorem Entry.IsChunk.size_pos (h : e.IsChunk l) : 1 ≤ e.size := Nat.le_trans l.min_pos h.min_le

theorem Entry.IsChunk.isBuffer (h : e.IsChunk l) : e.IsBuffer :=
  ⟨h.live, h.size_pos, Nat.le_succ_of_le h.size_le, h.data_length⟩

theorem Entry.Valid.size_le (h : e.Valid l) : e.size ≤ 32767 := by
  rcases h with h | ⟨-, h⟩
  · exact h.size_le
  · exact Nat.le_trans h l.hole_le

theorem liveCount_mul_min_le (h : ∀ e ∈ es, e.Valid l) : (l.min + 36) * liveCount es ≤ span es :=
  liveCount_mul_le fun e he hlive => ((h e he).isChunk hlive).min_le

/-- The overflow records of an index of the chunks of `xs` and `ys` are bounded by their bytes. -/
theorem over_le (xs ys : List Entry) {dir : Dir}
    (h : dir.entryCount 256 = liveCount xs + liveCount ys) (hxs : ∀ e ∈ xs, e.Valid l)
    (hys : ∀ e ∈ ys, e.Valid l) : (l.min + 36) * dir.stack.length ≤ span xs + span ys := by
  have hlen : dir.stack.length ≤ liveCount xs + liveCount ys := by
    rw [← h]
    exact Nat.le_add_left _ _
  have hmul := Nat.mul_le_mul_left (l.min + 36) hlen
  rw [Nat.mul_add] at hmul
  have h₁ := liveCount_mul_min_le hxs
  have h₂ := liveCount_mul_min_le hys
  omega

theorem over_mul_37_le (xs ys : List Entry) {dir : Dir}
    (h : dir.entryCount 256 = liveCount xs + liveCount ys) (hxs : ∀ e ∈ xs, e.Valid l)
    (hys : ∀ e ∈ ys, e.Valid l) : 37 * dir.stack.length ≤ span xs + span ys :=
  Nat.le_trans (Nat.mul_le_mul_right _ (by have := l.min_pos; omega)) (over_le xs ys h hxs hys)

theorem liveAt_live {a : Nat} (hlive : e.free = false) (es : List Entry) :
    liveAt a (e :: es) = cellDirEntrySet e.checksum a :: liveAt (a + e.span) es := by
  rw [liveAt, hlive]
  rfl

theorem liveAt_free {a : Nat} (hfree : e.free = true) (es : List Entry) :
    liveAt a (e :: es) = liveAt (a + e.span) es := by
  rw [liveAt, hfree]
  rfl

/-- The checksums of the chunks do not depend on where they lie. -/
theorem liveAt_checksums (a b : Nat) (es : List Entry) :
    (liveAt a es).map CellDirEntry.checksum = (liveAt b es).map CellDirEntry.checksum := by
  induction es generalizing a b with
  | nil => rfl
  | cons e es ih =>
      rw [liveAt, liveAt]
      split
      · exact ih _ _
      · simp only [List.map_cons, cellDirEntrySet]
        rw [ih]

end

/-! ## Taking entries out of the index -/

/-- The index gives up the chunks of any run of entries. -/
theorem removeAll_holds {A B : List CellDirEntry} {a : Nat} {es : List Entry} {dir : Dir}
    (h : dir.Holds (A ++ liveAt a es ++ B)) :
    ∃ dir', removeAll dir es = some dir' ∧ dir'.Holds (A ++ B) ∧ Index.NoFuller dir' dir := by
  induction es generalizing a dir with
  | nil => exact ⟨dir, rfl, by simpa [liveAt] using h, Index.NoFuller.refl dir⟩
  | cons e es ih =>
      rw [removeAll]
      by_cases hfree : e.free = true
      · rw [liveAt_free hfree] at h
        rw [if_pos hfree]
        exact ih h
      · rw [liveAt_live (by simpa using hfree)] at h
        rw [if_neg hfree]
        have hperm : (A ++ cellDirEntrySet e.checksum a :: liveAt (a + e.span) es ++ B).Perm
            (cellDirEntrySet e.checksum a :: (A ++ liveAt (a + e.span) es ++ B)) := by
          simp only [List.append_assoc, List.cons_append]
          exact List.perm_middle
        obtain ⟨dir₁, hremove, hdir₁⟩ := Index.remove_holds h hperm
        obtain ⟨dir', hrest, hdir', hle⟩ := ih hdir₁
        refine ⟨dir', ?_, hdir', hle.trans (Index.remove_noFuller hremove)⟩
        rw [show dir.remove e.checksum = some dir₁ from hremove]
        exact hrest

theorem removeAll_count {es : List Entry} {dir dir' : Dir} (h : removeAll dir es = some dir') :
    dir'.entryCount 256 + liveCount es = dir.entryCount 256 := by
  induction es generalizing dir with
  | nil =>
      rw [removeAll, Option.some.injEq] at h
      rw [h, liveCount, Nat.add_zero]
  | cons e es ih =>
      rw [removeAll] at h
      rw [liveCount]
      split at h
      · next hfree =>
          rw [if_pos hfree, Nat.zero_add]
          exact ih h
      · next hfree =>
          obtain ⟨dir₁, hremove, h⟩ := Option.bind_eq_some_iff.1 h
          have hone := Index.remove_entryCount hremove e.checksum.blockNo_lt
          have hrest := ih h
          rw [if_neg hfree]
          omega

theorem removeAll_find_none {c : Checksum} {es : List Entry} {dir dir' : Dir}
    (hfind : dir.find c = none) (h : removeAll dir es = some dir') : dir'.find c = none := by
  induction es generalizing dir with
  | nil =>
      rw [removeAll, Option.some.injEq] at h
      rwa [← h]
  | cons e es ih =>
      rw [removeAll] at h
      split at h
      · exact ih hfind h
      · obtain ⟨dir₁, hremove, h⟩ := Option.bind_eq_some_iff.1 h
        exact ih (Index.find_none_remove hfind hremove) h

/-- What making room does: nothing, fail, or give up the last entry. -/
theorem makeRoom_cases {A : List CellDirEntry} (top : Nat) {q : Nat} {dir : Dir} {rest : List Entry}
    (h : dir.Holds (A ++ liveAt q rest)) (hlive : ∀ e ∈ rest, e.free = false) :
    (36 ≤ bodyRoom top dir ∧ makeRoom top dir rest = some (rest, dir)) ∨
    (bodyRoom top dir < 36 ∧ rest = [] ∧ makeRoom top dir rest = none) ∨
    ∃ rest' y dir', bodyRoom top dir < 36 ∧ rest = rest' ++ [y] ∧
      dir.remove y.checksum = some dir' ∧ makeRoom top dir rest = some (rest', dir') ∧
      dir'.Holds (A ++ liveAt q rest') ∧ Index.NoFuller dir' dir := by
  by_cases hroom : 36 ≤ bodyRoom top dir
  · exact Or.inl ⟨hroom, if_pos hroom⟩
  · right
    rcases List.eq_nil_or_concat rest with rfl | ⟨rest', y, rfl⟩
    · exact Or.inl ⟨by omega, rfl, if_neg hroom⟩
    · right
      rw [List.concat_eq_append] at h hlive ⊢
      have hy : y.free = false := hlive y (by simp)
      rw [liveAt_append, liveAt_live hy, liveAt] at h
      have hperm : (A ++ (liveAt q rest' ++ [cellDirEntrySet y.checksum (q + span rest')])).Perm
          (cellDirEntrySet y.checksum (q + span rest') :: (A ++ liveAt q rest')) := by
        rw [← List.append_assoc]
        exact List.perm_append_singleton _ _
      obtain ⟨dir', hremove, hdir'⟩ := Index.remove_holds h hperm
      refine ⟨rest', y, dir', by omega, rfl, hremove, ?_, hdir', Index.remove_noFuller hremove⟩
      rw [makeRoom, if_neg hroom, List.getLast?_concat, List.dropLast_concat]
      simp only
      rw [show dir.remove y.checksum = some dir' from hremove]
      rfl

theorem makeRoom_eq_none {A : List CellDirEntry} {top q : Nat} {dir : Dir} {rest : List Entry}
    (h : dir.Holds (A ++ liveAt q rest)) (hlive : ∀ e ∈ rest, e.free = false) :
    makeRoom top dir rest = none ↔ bodyRoom top dir < 36 ∧ rest = [] := by
  rcases makeRoom_cases top h hlive with ⟨hfree, hmake⟩ | ⟨hfull, hrest, hmake⟩ |
      ⟨rest', y, dir', -, rfl, -, hmake, -⟩
  · simp only [hmake, reduceCtorEq, false_iff]
    omega
  · exact iff_of_true hmake ⟨hfull, hrest⟩
  · simp [hmake]

namespace Ring

/-- The shape of a cell. -/
structure Shape (l : Limits) (r : Ring) : Prop where
  below_live : ∀ e ∈ r.below, e.free = false
  above_live : ∀ e ∈ r.above.tail, e.free = false
  valid : ∀ e ∈ r.entries, e.Valid l
  room : r.top + 36 * r.dir.stack.length ≤ 1019836
  lap : r.above ≠ [] → 470000 ≤ r.top
  count : r.dir.entryCount 256 = liveCount r.entries

/-- A cell whose index holds its chunks. -/
structure Inv (l : Limits) (r : Ring) : Prop extends Shape l r where
  index : r.dir.Holds (liveAt 0 r.entries)

/-- The checksum is that of no chunk of the ring. -/
def Fresh (r : Ring) (c : Checksum) : Prop := c ∉ (liveAt 0 r.entries).map CellDirEntry.checksum

variable {l : Limits} {r r' : Ring} {e x : Entry} {es : List Entry}

/-- The empty cell. -/
def empty : Ring := ⟨[], [], Index.empty 3⟩

theorem empty_inv (l : Limits) : empty.Inv l where
  below_live e he := by simp [empty] at he
  above_live e he := by simp [empty] at he
  valid e he := by simp [empty, entries] at he
  room := by decide
  lap h := by simp [empty] at h
  count := Index.empty_entryCount 3 256
  index := Index.empty_holds 3

/-- The common part of the ways to insert: `e` goes behind `below`, with `holes` between it and
`rest`, and the index, which had the entries of `below` and `rest`, gets its entry. -/
theorem insert_shape (holes : List Entry) {below rest : List Entry} {dir : Dir} {q : Nat}
    (he : e.IsChunk l) (hbelow : ∀ x ∈ below, x.free = false) (hrest : ∀ x ∈ rest, x.free = false)
    (hvalid : ∀ x ∈ below ++ rest, x.Valid l)
    (hholes : holes = [] ∨ ∃ k, holes = [Entry.hole k] ∧ k ≤ l.hole)
    (hq : q = span below + e.span + span holes)
    (hcount : dir.entryCount 256 = liveCount below + liveCount rest)
    (hroom : q + span rest + 36 * (dir.stack.length + 1) ≤ 1019836)
    (hlap : holes ++ rest ≠ [] → 470000 ≤ q + span rest) :
    Shape l ⟨below ++ [e], holes ++ rest,
      dir.add (cellDirEntrySet e.checksum (span below))⟩ := by
  have htop : span ((below ++ [e]) ++ (holes ++ rest)) = q + span rest := by
    simp only [span_append, span_cons, span_nil, hq]
    omega
  constructor
  · intro x hx
    rcases List.mem_append.1 hx with hx | hx
    · exact hbelow x hx
    · rw [List.mem_singleton.1 hx, he.live]
  · intro x hx
    rcases hholes with rfl | ⟨k, rfl, -⟩
    · exact hrest x (List.mem_of_mem_tail hx)
    · exact hrest x hx
  · intro x hx
    simp only [entries, List.mem_append, List.mem_singleton] at hx
    rcases hx with (hx | rfl) | hx | hx
    · exact hvalid x (List.mem_append_left _ hx)
    · exact Or.inl he
    · rcases hholes with rfl | ⟨k, rfl, hk⟩
      · cases hx
      · rw [List.mem_singleton.1 hx]
        exact Or.inr ⟨rfl, hk⟩
    · exact hvalid x (List.mem_append_right _ hx)
  · have hover := Dir.add_over_length_le dir (cellDirEntrySet e.checksum (span below))
    show span _ + _ ≤ _
    rw [entries, htop]
    simp only
    omega
  · intro hne
    show _ ≤ span _
    rw [entries, htop]
    exact hlap hne
  · have hnone : liveCount holes = 0 := by
      rcases hholes with rfl | ⟨k, rfl, -⟩
      · rfl
      · rfl
    have hone : liveCount [e] = 1 := by rw [liveCount, liveCount, he.live]; rfl
    show (dir.add _).entryCount 256 = _
    rw [Dir.add, Index.add_entryCount dir _ (Checksum.blockNo_lt _), hcount, entries, liveCount_append,
      liveCount_append, liveCount_append, hnone, hone]
    omega

/-- The chunks after an insertion, but for the chunk inserted. -/
theorem insert_live (holes : List Entry) {below rest : List Entry} {q : Nat} (hlive : e.free = false)
    (hholes : liveAt (span below + e.span) holes = [])
    (hq : q = span below + e.span + span holes) :
    (liveAt 0 ((below ++ [e]) ++ (holes ++ rest))).Perm
      (cellDirEntrySet e.checksum (span below) :: (liveAt 0 below ++ liveAt q rest)) := by
  rw [List.append_assoc, liveAt_append, Nat.zero_add, List.singleton_append, liveAt_live hlive,
    liveAt_append, hholes, List.nil_append, ← hq]
  exact List.perm_middle

/-- Chunks that take any room at all count, and hold bytes. -/
theorem live_pos {xs ys : List Entry} (hxs : ∀ x ∈ xs, x.free = false)
    (hys : ∀ y ∈ ys, y.free = false) (hvalid : ∀ x ∈ xs ++ ys, x.Valid l)
    (hspan : 0 < span xs + span ys) :
    0 < liveCount xs + liveCount ys ∧ 0 < liveBytes xs + liveBytes ys := by
  have hlive : ∀ x ∈ xs ++ ys, x.free = false := by
    intro x hx
    rcases List.mem_append.1 hx with hx | hx
    · exact hxs x hx
    · exact hys x hx
  rw [← span_append] at hspan
  rw [← liveCount_append, ← liveBytes_append]
  have hbytes := liveBytes_pos hlive (fun x hx => ((hvalid x hx).isChunk (hlive x hx)).size_pos) hspan
  refine ⟨?_, hbytes⟩
  cases hzs : xs ++ ys with
  | nil => simp [hzs, liveBytes] at hbytes
  | cons z zs =>
      rw [liveCount, hlive z (by simp [hzs])]
      simp only [Bool.false_eq_true, if_false]
      omega

/-- An index entry more fits once room was made, and the body stays nearly full. -/
theorem makeRoom_spec {below rest rest' : List Entry} {dir dir' : Dir} {top q : Nat}
    (hcount : dir.entryCount 256 = liveCount below + liveCount rest)
    (hrest : ∀ x ∈ rest, x.free = false) (hvalid : ∀ x ∈ below ++ rest, x.Valid l)
    (hq : span below ≤ q) (htop : top = q + span rest)
    (hroom : top + 36 * dir.stack.length ≤ 1019836) (hlap : 470000 ≤ top)
    (h : makeRoom top dir rest = some (rest', dir')) :
    rest' <+: rest ∧ dir'.entryCount 256 = liveCount below + liveCount rest' ∧
      Index.NoFuller dir' dir ∧
      q + span rest' + 36 * (dir'.stack.length + 1) ≤ 1019836 ∧ 470000 ≤ q + span rest' := by
  have hover := over_mul_37_le below rest hcount (fun x hx => hvalid x (List.mem_append_left _ hx))
    (fun x hx => hvalid x (List.mem_append_right _ hx))
  rcases makeRoom_eq_some h with ⟨hfree, rfl, rfl⟩ | ⟨y, hfull, rfl, hremove⟩
  · rw [bodyRoom] at hfree
    exact ⟨List.prefix_refl _, hcount, Index.NoFuller.refl dir', by omega, by omega⟩
  · rw [bodyRoom] at hfull
    have hy := (hvalid y (by simp)).size_le
    have hle := Index.remove_noFuller hremove
    have hone := Index.remove_entryCount hremove y.checksum.blockNo_lt
    have hstack := hle.1
    have hlive : liveCount [y] = 1 := by rw [liveCount, liveCount, hrest y (by simp)]; rfl
    rw [liveCount_append, hlive] at hcount
    simp only [span_append, span_cons, span_nil, Entry.span] at htop hover
    exact ⟨List.prefix_append _ _, by omega, hle, by omega, by omega⟩

/-- What is left of the index once the run `taken` behind the cut was taken out. -/
theorem Shape.taken_count (h : Shape l r) {taken rest : List Entry} {dir : Dir}
    (habove : r.above = taken ++ rest) (htake : removeAll r.dir taken = some dir) :
    dir.entryCount 256 = liveCount r.below + liveCount rest := by
  have hcount := removeAll_count htake
  rw [h.count, entries, habove, liveCount_append, liveCount_append] at hcount
  omega

/-- Taking a run of entries behind the cut out of the index leaves it with the others. -/
theorem Inv.take_run (h : Inv l r) {taken rest : List Entry} (habove : r.above = taken ++ rest) :
    ∃ dir, removeAll r.dir taken = some dir ∧ Index.NoFuller dir r.dir ∧
      dir.Holds (liveAt 0 r.below ++ liveAt (r.next + span taken) rest) := by
  have hindex := h.index
  rw [entries, habove, liveAt_append, liveAt_append, Nat.zero_add, ← List.append_assoc] at hindex
  obtain ⟨dir, hremove, hdir, hle⟩ := removeAll_holds hindex
  exact ⟨dir, hremove, hle, hdir⟩

theorem fresh_sublist {taken rest rest' : List Entry} {q : Nat}
    (hfresh : r.Fresh e.checksum) (habove : r.above = taken ++ rest) (hrest : rest' <+: rest) :
    e.checksum ∉ (liveAt 0 r.below ++ liveAt q rest').map CellDirEntry.checksum := by
  intro hmem
  apply hfresh
  obtain ⟨dropped, rfl⟩ := hrest
  rw [entries, habove, liveAt_append, liveAt_append, liveAt_append,
    List.map_append, List.map_append, List.map_append]
  rw [List.map_append, liveAt_checksums q] at hmem
  rcases List.mem_append.1 hmem with hmem | hmem
  · exact List.mem_append_left _ hmem
  · exact List.mem_append_right _ (List.mem_append_right _ (List.mem_append_left _ hmem))

theorem top_eq (r : Ring) {taken rest : List Entry} (habove : r.above = taken ++ rest) :
    r.top = r.next + span taken + span rest := by
  rw [top, entries, habove, span_append, span_append, next, Nat.add_assoc]

/-- Where nothing lies behind the cut, an entry may be pushed if it fits. -/
theorem push_shape {below : List Entry} {dir : Dir} (he : e.IsChunk l)
    (hbelow : ∀ x ∈ below, x.free = false) (hvalid : ∀ x ∈ below, x.Valid l)
    (hcount : dir.entryCount 256 = liveCount below)
    (hfits : fits ⟨below, [], dir⟩ e = true) : Shape l (Ring.push ⟨below, [], dir⟩ e) := by
  have hroom : e.size + 72 ≤ bodyRoom (span below) dir := (fits_iff _ _).1 hfits
  rw [bodyRoom] at hroom
  refine insert_shape [] (q := span below + e.span) he hbelow (by simp) (by simpa using hvalid)
    (Or.inl rfl) rfl (by simpa [liveCount] using hcount) ?_ (by simp)
  simp only [span_nil, Entry.span]
  omega

theorem Shape.valid_rest (h : Shape l r) {taken rest : List Entry} (habove : r.above = taken ++ rest) :
    ∀ y ∈ r.below ++ rest, y.Valid l := by
  intro y hy
  refine h.valid y ?_
  rw [entries, habove]
  rcases List.mem_append.1 hy with hy | hy
  · exact List.mem_append_left _ hy
  · exact List.mem_append_right _ (List.mem_append_right _ hy)

theorem Shape.valid_prefix (h : Shape l r) {taken rest rest' : List Entry}
    (habove : r.above = taken ++ rest) (hpre : rest' <+: rest) : ∀ y ∈ r.below ++ rest', y.Valid l := by
  intro y hy
  refine h.valid_rest habove y ?_
  rcases List.mem_append.1 hy with hy | hy
  · exact List.mem_append_left _ hy
  · exact List.mem_append_right _ (hpre.subset hy)

theorem Shape.rest_live (h : Shape l r) {taken rest : List Entry} (habove : r.above = taken ++ rest)
    (hne : taken ≠ []) : ∀ y ∈ rest, y.free = false := by
  intro y hy
  refine h.above_live y ?_
  rw [habove, List.tail_append_of_ne_nil hne]
  exact List.mem_append_right _ hy

/-- Making room behind a run that was taken out of the index. -/
theorem Shape.room_made (h : Shape l r) {taken rest rest' : List Entry} {dir dir' : Dir}
    (habove : r.above = taken ++ rest) (hne : taken ≠ []) (htake : removeAll r.dir taken = some dir)
    (hmake : makeRoom r.top dir rest = some (rest', dir')) :
    rest' <+: rest ∧ dir'.entryCount 256 = liveCount r.below + liveCount rest' ∧
      Index.NoFuller dir' dir ∧
      r.next + span taken + span rest' + 36 * (dir'.stack.length + 1) ≤ 1019836 ∧
      470000 ≤ r.next + span taken + span rest' := by
  have hroom := h.room
  have hstack := (removeAll_noFuller htake).1
  have hlap := h.lap (by rw [habove]; simp [hne])
  exact makeRoom_spec (h.taken_count habove htake) (h.rest_live habove hne) (h.valid_rest habove)
    (Nat.le_add_right _ _) (top_eq r habove) (by omega) hlap hmake

/-- What the index holds then. -/
theorem Inv.room_holds (h : Inv l r) {taken rest rest' : List Entry} {dir dir' : Dir}
    (habove : r.above = taken ++ rest) (hne : taken ≠ []) (htake : removeAll r.dir taken = some dir)
    (hmake : makeRoom r.top dir rest = some (rest', dir')) :
    dir'.Holds (liveAt 0 r.below ++ liveAt (r.next + span taken) rest') := by
  obtain ⟨dir₀, htake₀, -, hdir⟩ := h.take_run habove
  rw [htake, Option.some.injEq] at htake₀
  subst htake₀
  rcases makeRoom_cases r.top hdir (h.rest_live habove hne) with ⟨-, hmake'⟩ | ⟨-, -, hmake'⟩ |
      ⟨rest₁, y, dir₁, -, rfl, -, hmake', hdir₁, -⟩
  · rw [hmake', Option.some.injEq, Prod.mk.injEq] at hmake
    obtain ⟨rfl, rfl⟩ := hmake
    exact hdir
  · rw [hmake'] at hmake
    cases hmake
  · rw [hmake', Option.some.injEq, Prod.mk.injEq] at hmake
    obtain ⟨rfl, rfl⟩ := hmake
    exact hdir₁

/-- Beside a run of limited size a chunk is left. -/
theorem Shape.remains (h : Shape l r) {taken rest rest' : List Entry} (habove : r.above = taken ++ rest)
    (hne : taken ≠ []) (hpre : rest' <+: rest) (hlap : 470000 ≤ r.next + span taken + span rest')
    (hspan : span taken < 470000) :
    0 < liveCount r.below + liveCount rest' ∧ 0 < liveBytes r.below + liveBytes rest' := by
  rw [next] at hlap
  exact live_pos (l := l) h.below_live (fun y hy => h.rest_live habove hne y (hpre.subset hy))
    (h.valid_prefix habove hpre) (by omega)

theorem Shape.replace (h : Shape l r) (he : e.IsChunk l) (habove : r.above = x :: es)
    (hsize : x.size = e.size) (hadd : r.replace x es e = some r') : Shape l r' := by
  have habove' : r.above = [x] ++ es := habove
  have hes := h.rest_live habove' (by simp)
  obtain ⟨dir, hremove, hadd⟩ := Option.bind_eq_some_iff.1 hadd
  obtain ⟨⟨rest', dir'⟩, hmake, rfl⟩ := Option.map_eq_some_iff.1 hadd
  obtain ⟨hpre, hcount, -, hroom', hlap'⟩ := h.room_made habove' (by simp) hremove hmake
  refine insert_shape [] (q := r.next + span [x]) he h.below_live
    (fun y hy => hes y (hpre.subset hy)) (h.valid_prefix habove' hpre) (Or.inl rfl) ?_ hcount hroom'
    (fun _ => hlap')
  simp only [span_cons, span_nil, Entry.span, hsize, next, Nat.add_zero]

/-- The hole that is left when `e` takes the place of `x` and of entries of `es`. -/
def leftover (x : Entry) (es : List Entry) (e : Entry) : Nat :=
  (gather (e.size + 36) x.size es).1 - (e.size + 36)

/-- Overwriting from the cut on, `e` takes the place of several entries and leaves a hole of `k`
bytes. -/
def LeavesHole (r : Ring) (e : Entry) (k : Nat) : Prop :=
  ∃ x es, r.above = x :: es ∧ x.size ≠ e.size ∧ (gather (e.size + 36) x.size es).2.2 ≠ [] ∧
    k = leftover x es e

theorem leavesHole_iff {k : Nat} (habove : r.above = x :: es) (hsize : x.size ≠ e.size) :
    r.LeavesHole e k ↔
      (gather (e.size + 36) x.size es).2.2 ≠ [] ∧ k = leftover x es e := by
  constructor
  · rintro ⟨x', es', habove', -, hrest, hk⟩
    rw [habove, List.cons.injEq] at habove'
    obtain ⟨rfl, rfl⟩ := habove'
    exact ⟨hrest, hk⟩
  · rintro ⟨hrest, hk⟩
    exact ⟨x, es, habove, hsize, hrest, hk⟩

theorem gather_above (habove : r.above = x :: es) (required : Nat) :
    r.above = (x :: (gather required x.size es).2.1) ++ (gather required x.size es).2.2 := by
  rw [habove, List.cons_append, ← gather_split]

/-- Without the entries from the cut up to the top. -/
theorem Shape.cut (h : Shape l r) {dir : Dir} (htake : removeAll r.dir r.above = some dir) :
    Shape l ⟨r.below, [], dir⟩ := by
  have habove : r.above = r.above ++ [] := (List.append_nil _).symm
  have hvalid := h.valid_rest habove
  have hcount := h.taken_count habove htake
  have hroom := h.room
  have hstack := (removeAll_noFuller htake).1
  have htop := top_eq r habove
  rw [next] at htop
  rw [List.append_nil] at hvalid
  refine ⟨h.below_live, by simp, by simpa [entries] using hvalid, ?_, by simp,
    by simpa [entries, liveCount] using hcount⟩
  simp only [top, entries, List.append_nil]
  omega

theorem Shape.merge (h : Shape l r) (he : e.IsChunk l) (habove : r.above = x :: es)
    (hhole : (gather (e.size + 36) x.size es).2.2 ≠ [] → leftover x es e ≤ l.hole)
    (hadd : r.merge x es e = some r') : Shape l r' := by
  have habove' := gather_above habove (e.size + 36)
  have hfree := gather_free (e.size + 36) x.size es
  have henough := gather_enough (e.size + 36) x.size es
  rw [leftover] at hhole
  obtain ⟨dir, hremove, hadd⟩ := Option.bind_eq_some_iff.1 hadd
  simp only at hadd
  generalize gather (e.size + 36) x.size es = merged at *
  obtain ⟨free, taken, rest⟩ := merged
  simp only at *
  have hvalid := h.valid_rest habove'
  have hcount := h.taken_count habove' hremove
  cases rest with
  | nil =>
      rw [Option.some.injEq] at hadd
      subst hadd
      rw [List.append_nil] at hvalid
      split
      · next hfits => exact push_shape he h.below_live hvalid hcount hfits
      · rw [List.append_nil] at habove'
        exact h.cut (habove' ▸ hremove)
  | cons y ys =>
      obtain ⟨⟨rest', dir'⟩, hmake, rfl⟩ := Option.map_eq_some_iff.1 hadd
      have hrest := h.rest_live habove' (by simp)
      obtain ⟨hpre, hcount', -, hroom', hlap'⟩ := h.room_made habove' (by simp) hremove hmake
      -- the loop stopped short of the top because enough was free
      have henough := henough (List.cons_ne_nil y ys)
      refine insert_shape [Entry.hole (free - (e.size + 36))] he h.below_live
        (fun z hz => hrest z (hpre.subset hz)) (h.valid_prefix habove' hpre)
        (Or.inr ⟨_, rfl, hhole (by simp)⟩) ?_ hcount' hroom' (fun _ => hlap')
      simp only [span_cons, span_nil, Entry.span, Entry.hole, next, Nat.add_zero]
      omega

theorem Shape.leftover_le (h : Shape l r) (habove : r.above = x :: es)
    (hmax : l.max + 36 ≤ l.hole) : leftover x es e ≤ l.hole := by
  have hes := h.rest_live (show r.above = [x] ++ es from habove) (by simp)
  have hvalid : ∀ y ∈ x :: es, y.Valid l := fun y hy =>
    h.valid y (by rw [entries, habove]; exact List.mem_append_right _ hy)
  have hspan : ∀ y ∈ es, y.span ≤ l.max + 36 := fun y hy => by
    have := ((hvalid y (List.mem_cons_of_mem _ hy)).isChunk (hes y hy)).le_max
    rw [Entry.span]
    omega
  have hle := gather_le (e.size + 36) x.size hspan
  have hx : x.size ≤ l.hole := by
    rcases hvalid x List.mem_cons_self with hx | ⟨-, hx⟩
    · have := hx.le_max
      omega
    · exact hx
  rw [leftover]
  omega

/-- The entries that are merged are few. -/
theorem Shape.taken_le (h : Shape l r) (he : e.IsBuffer) (habove : r.above = x :: es) :
    span (x :: (gather (e.size + 36) x.size es).2.1) ≤ 65643 := by
  have hvalid : ∀ y ∈ x :: es, y.Valid l := fun y hy =>
    h.valid y (by rw [entries, habove]; exact List.mem_append_right _ hy)
  have hspan : ∀ y ∈ es, y.span ≤ 32803 := fun y hy => by
    have := (hvalid y (List.mem_cons_of_mem _ hy)).size_le
    rw [Entry.span]
    omega
  have hle := gather_le (e.size + 36) x.size hspan
  have hfree := gather_free (e.size + 36) x.size es
  have hx := (hvalid x List.mem_cons_self).size_le
  have hsize := he.size_le
  rw [span_cons, Entry.span]
  omega

/-- At the end of a lap, where the entry does not fit at the top, the body is nearly full. -/
theorem Shape.rewind (h : Shape l r) (he : e.IsBuffer) (hfits : ¬(r.above = [] ∧ r.fits e)) :
    Shape l r.rewind := by
  rw [Ring.rewind]
  split
  · next habove =>
      have hroom : bodyRoom r.next r.dir < e.size + 72 := by
        have hno : ¬ r.fits e = true := fun hh => hfits ⟨habove, hh⟩
        rwa [fits_iff, Nat.not_le] at hno
      have hentries : r.entries = r.below := by rw [entries, habove, List.append_nil]
      have hvalid : ∀ y ∈ r.below, y.Valid l := fun y hy => h.valid y (hentries ▸ hy)
      have hcount := h.count
      rw [hentries] at hcount
      have hover := over_mul_37_le r.below [] (by simpa [liveCount] using hcount) hvalid (by simp)
      have hsize := he.size_le
      have htop := h.room
      rw [top, hentries] at htop
      rw [bodyRoom, next] at hroom
      refine ⟨by simp, fun y hy => h.below_live y (List.mem_of_mem_tail hy),
        by simpa [entries] using hvalid,
        htop, fun _ => ?_, hcount⟩
      simp only [top, entries, List.nil_append]
      simp only [span_nil] at hover
      omega
  · exact h

theorem rewind_entries (r : Ring) : r.rewind.entries = r.entries := by
  rw [Ring.rewind]
  split
  · next habove => simp [entries, habove]
  · rfl

theorem rewind_dir (r : Ring) : r.rewind.dir = r.dir := by
  rw [Ring.rewind]
  split
  · rfl
  · rfl

theorem Inv.rewind (h : Inv l r) (he : e.IsChunk l) (hfits : ¬(r.above = [] ∧ r.fits e)) :
    Inv l r.rewind where
  toShape := h.toShape.rewind he.isBuffer hfits
  index := by
    rw [rewind_dir, rewind_entries]
    exact h.index

/-- No hole is too long where chunks are small enough. -/
theorem Shape.leavesHole_le (h : Shape l r) (he : e.IsChunk l) (hmax : l.max + 36 ≤ l.hole) :
    ¬(r.above = [] ∧ r.fits e) → ∀ k, r.rewind.LeavesHole e k → k ≤ l.hole := by
  rintro hno k ⟨x, es, habove, -, -, rfl⟩
  exact (h.rewind he.isBuffer hno).leftover_le habove hmax

/-- An insertion that does not abort keeps the shape. -/
theorem Shape.add (h : Shape l r) (he : e.IsChunk l)
    (hhole : ¬(r.above = [] ∧ r.fits e) → ∀ k, r.rewind.LeavesHole e k → k ≤ l.hole)
    (hadd : r.add e = some r') : Shape l r' := by
  rw [Ring.add] at hadd
  split at hadd
  · next hfits =>
      obtain ⟨habove, hfits⟩ := hfits
      obtain ⟨below, above, dir⟩ := r
      simp only at habove
      subst habove
      rw [Option.some.injEq] at hadd
      subst hadd
      have hvalid := h.valid
      have hcount := h.count
      simp only [entries, List.append_nil] at hvalid hcount
      exact push_shape he h.below_live hvalid hcount hfits
  · next hfits =>
      have hrewind := h.rewind he.isBuffer hfits
      rw [Ring.overwrite] at hadd
      split at hadd
      · cases hadd
      · next x es habove =>
          split at hadd
          · next hsize => exact hrewind.replace he habove hsize hadd
          · next hsize =>
              exact hrewind.merge he habove
                (fun hrest => hhole hfits _ ⟨x, es, habove, hsize, hrest, rfl⟩) hadd

/-! ## The index across an insertion -/

/-- An insertion takes entries out of the index and then, unless the chunk is lost, adds its own. -/
def Indexes (r : Ring) (e : Entry) (r' : Ring) (dir : Dir) (L : List CellDirEntry) : Prop :=
  dir.Holds L ∧ Index.NoFuller dir r.dir ∧
    ((r'.dir = dir ∧ liveAt 0 r'.entries = L) ∨
      ∃ p, p.checksum = e.checksum ∧ e.checksum ∉ L.map CellDirEntry.checksum ∧
        r'.dir = dir.add p ∧ (liveAt 0 r'.entries).Perm (p :: L))

theorem Inv.replace_indexes (h : Inv l r) (he : e.IsChunk l) (hfresh : r.Fresh e.checksum)
    (habove : r.above = x :: es) (hsize : x.size = e.size) (hadd : r.replace x es e = some r') :
    ∃ dir L, Indexes r e r' dir L := by
  have habove' : r.above = [x] ++ es := habove
  obtain ⟨dir, hremove, hadd⟩ := Option.bind_eq_some_iff.1 hadd
  obtain ⟨⟨rest', dir'⟩, hmake, rfl⟩ := Option.map_eq_some_iff.1 hadd
  obtain ⟨hpre, -, hle, -⟩ := h.room_made habove' (by simp) hremove hmake
  refine ⟨dir', _, h.room_holds habove' (by simp) hremove hmake,
    hle.trans (removeAll_noFuller hremove), Or.inr ⟨r.place e, rfl,
      fresh_sublist hfresh habove' hpre, rfl, insert_live [] he.live rfl ?_⟩⟩
  simp only [span_cons, span_nil, Entry.span, hsize, next, Nat.add_zero]

theorem Inv.merge_indexes (h : Inv l r) (he : e.IsChunk l) (hfresh : r.Fresh e.checksum)
    (habove : r.above = x :: es) (hadd : r.merge x es e = some r') :
    ∃ dir L, Indexes r e r' dir L := by
  have habove' := gather_above habove (e.size + 36)
  have hfree := gather_free (e.size + 36) x.size es
  have henough := gather_enough (e.size + 36) x.size es
  obtain ⟨dir, hremove, hadd⟩ := Option.bind_eq_some_iff.1 hadd
  simp only at hadd
  generalize gather (e.size + 36) x.size es = merged at *
  obtain ⟨free, taken, rest⟩ := merged
  simp only at *
  have hle := removeAll_noFuller hremove
  cases rest with
  | nil =>
      obtain ⟨dir₀, htake₀, -, hdir⟩ := h.take_run habove'
      rw [hremove, Option.some.injEq] at htake₀
      subst htake₀
      rw [liveAt, List.append_nil] at hdir
      rw [Option.some.injEq] at hadd
      refine ⟨dir, _, hdir, hle, ?_⟩
      rw [← hadd]
      split
      · refine Or.inr ⟨cellDirEntrySet e.checksum (span r.below), rfl, ?_, rfl, ?_⟩
        · have := fresh_sublist (q := 0) hfresh habove' (List.prefix_refl [])
          rwa [liveAt, List.append_nil] at this
        · rw [push_entries, liveAt_append, liveAt_live he.live, Nat.zero_add, liveAt]
          exact List.perm_append_singleton _ _
      · exact Or.inl ⟨rfl, congrArg (liveAt 0) (List.append_nil _)⟩
  | cons y ys =>
      obtain ⟨⟨rest', dir'⟩, hmake, rfl⟩ := Option.map_eq_some_iff.1 hadd
      obtain ⟨hpre, -, hle', -⟩ := h.room_made habove' (by simp) hremove hmake
      have henough := henough (List.cons_ne_nil y ys)
      refine ⟨dir', _, h.room_holds habove' (by simp) hremove hmake, hle'.trans hle,
        Or.inr ⟨r.place e, rfl, fresh_sublist hfresh habove' hpre, rfl,
          insert_live [Entry.hole (free - (e.size + 36))] he.live rfl ?_⟩⟩
      simp only [span_cons, span_nil, Entry.span, Entry.hole, next, Nat.add_zero]
      omega

theorem Inv.add_indexes (h : Inv l r) (he : e.IsChunk l) (hfresh : r.Fresh e.checksum)
    (hadd : r.add e = some r') : ∃ dir L, Indexes r e r' dir L := by
  rw [Ring.add] at hadd
  split at hadd
  · next hfits =>
      obtain ⟨below, above, dir⟩ := r
      obtain ⟨habove, hfits⟩ := hfits
      simp only at habove
      subst habove
      rw [Option.some.injEq] at hadd
      subst hadd
      have hindex := h.index
      rw [Fresh] at hfresh
      simp only [entries, List.append_nil] at hindex hfresh
      refine ⟨dir, _, hindex, Index.NoFuller.refl dir, Or.inr
        ⟨cellDirEntrySet e.checksum (span below), rfl, hfresh, rfl, ?_⟩⟩
      rw [push_entries, liveAt_append, liveAt_live he.live, Nat.zero_add, liveAt]
      exact List.perm_append_singleton _ _
  · next hfits =>
      have hrewind := h.rewind he hfits
      rw [Fresh, ← rewind_entries] at hfresh
      have hdir := rewind_dir r
      rw [Ring.overwrite] at hadd
      split at hadd
      · cases hadd
      · next x es habove =>
          split at hadd
          · next hsize =>
              obtain ⟨dir, L, hindexes⟩ := hrewind.replace_indexes he hfresh habove hsize hadd
              rw [Indexes, hdir] at hindexes
              exact ⟨dir, L, hindexes⟩
          · next hsize =>
              obtain ⟨dir, L, hindexes⟩ := hrewind.merge_indexes he hfresh habove hadd
              rw [Indexes, hdir] at hindexes
              exact ⟨dir, L, hindexes⟩

/-- An insertion that does not abort keeps the invariant, if the counter of its bucket has room. -/
theorem Inv.add (h : Inv l r) (he : e.IsChunk l) (hfresh : r.Fresh e.checksum)
    (haccepts : r.dir.Accepts 4095 e.checksum.blockNo)
    (hhole : ¬(r.above = [] ∧ r.fits e) → ∀ k, r.rewind.LeavesHole e k → k ≤ l.hole)
    (hadd : r.add e = some r') : Inv l r' where
  toShape := h.toShape.add he hhole hadd
  index := by
    obtain ⟨dir, L, hdir, hle, ⟨heq, hL⟩ | ⟨p, hp, hout, heq, hperm⟩⟩ := h.add_indexes he hfresh hadd
    · rw [heq, hL]
      exact hdir
    · rw [heq]
      refine (Index.add_holds hdir (by rw [hp]; exact hout) ?_).of_perm hperm.symm
      rw [hp]
      exact hle.accepts haccepts

/-- Merging never runs out of entries to give up. -/
theorem Inv.merge_ne_none (h : Inv l r) (habove : r.above = x :: es) : r.merge x es e ≠ none := by
  have habove' := gather_above habove (e.size + 36)
  obtain ⟨dir, hremove, -, hdir⟩ := h.take_run habove'
  have hrest := h.rest_live habove' (by simp)
  intro hnone
  rw [Ring.merge] at hnone
  simp only [hremove, Option.bind_some] at hnone
  split at hnone
  · cases hnone
  · next y ys heq =>
      rw [heq] at hdir hrest
      rw [Option.map_eq_none_iff, makeRoom_eq_none hdir hrest] at hnone
      cases hnone.2

/-- An entry that does not fit at the top of a cell overwrites another. -/
theorem Shape.rewind_above_ne (h : Shape l r) (he : e.IsBuffer)
    (hfits : ¬(r.above = [] ∧ r.fits e)) : r.rewind.above ≠ [] := by
  intro hnil
  have habove : r.above = [] := by
    by_contra hne
    rw [Ring.rewind, if_neg hne] at hnil
    exact hne hnil
  rw [Ring.rewind, if_pos habove] at hnil
  -- an empty cell has room for any entry
  apply hfits
  have hcount := h.count
  have hsize := he.size_le
  rw [entries, habove, show r.below = [] from hnil, List.append_nil, Index.entryCount,
    liveCount] at hcount
  refine ⟨habove, (fits_iff _ _).2 ?_⟩
  rw [bodyRoom, next, show r.below = [] from hnil, span_nil]
  omega

/-! ## What an insertion keeps -/

theorem makeRoom_subset {top : Nat} {dir dir' : Dir} {rest rest' : List Entry}
    (h : makeRoom top dir rest = some (rest', dir')) : rest' ⊆ rest := by
  rw [makeRoom] at h
  split at h
  · rw [Option.some.injEq, Prod.mk.injEq] at h
    rw [h.1]
    exact List.Subset.refl _
  · split at h
    · cases h
    · obtain ⟨_, _, heq⟩ := Option.map_eq_some_iff.1 h
      rw [Prod.mk.injEq] at heq
      rw [← heq.1]
      exact (List.dropLast_sublist rest).subset

theorem replace_live (habove : r.above = x :: es) (hadd : r.replace x es e = some r') {y : Entry}
    (hy : y ∈ r'.entries) : y = e ∨ y ∈ r.entries := by
  obtain ⟨dir, -, hadd⟩ := Option.bind_eq_some_iff.1 hadd
  obtain ⟨⟨rest, dir'⟩, hmake, rfl⟩ := Option.map_eq_some_iff.1 hadd
  rw [entries, habove]
  simp only [entries, List.append_assoc, List.singleton_append, List.mem_append,
    List.mem_cons] at hy ⊢
  rcases hy with hy | hy | hy
  · exact Or.inr (Or.inl hy)
  · exact Or.inl hy
  · exact Or.inr (Or.inr (Or.inr (makeRoom_subset hmake hy)))

theorem merge_live (habove : r.above = x :: es) (hadd : r.merge x es e = some r') {y : Entry}
    (hy : y ∈ r'.entries) (hlive : y.free = false) : y = e ∨ y ∈ r.entries := by
  have hsplit := gather_split (e.size + 36) x.size es
  obtain ⟨dir, -, hadd⟩ := Option.bind_eq_some_iff.1 hadd
  rw [entries, habove]
  simp only at hadd
  split at hadd
  · rw [Option.some.injEq] at hadd
    subst hadd
    split at hy
    · rw [push_entries] at hy
      simp only [List.mem_append, List.mem_singleton] at hy ⊢
      rcases hy with hy | hy
      · exact Or.inr (Or.inl hy)
      · exact Or.inl hy
    · simp only [entries, List.append_nil] at hy
      exact Or.inr (List.mem_append_left _ hy)
  · next z zs hrest =>
      obtain ⟨⟨rest, dir'⟩, hmake, rfl⟩ := Option.map_eq_some_iff.1 hadd
      simp only [entries, List.append_assoc, List.singleton_append, List.mem_append,
        List.mem_cons] at hy ⊢
      rcases hy with hy | hy | hy | hy
      · exact Or.inr (Or.inl hy)
      · exact Or.inl hy
      · rw [hy] at hlive
        cases hlive
      · right
        right
        right
        rw [hsplit, hrest]
        exact List.mem_append_right _ (makeRoom_subset hmake hy)

/-- The chunks after an insertion were there before, or are the one inserted. -/
theorem add_live (hadd : r.add e = some r') {y : Entry} (hy : y ∈ r'.entries)
    (hlive : y.free = false) : y = e ∨ y ∈ r.entries := by
  rw [Ring.add] at hadd
  split at hadd
  · next hfits =>
      rw [Option.some.injEq] at hadd
      subst hadd
      rw [push_entries] at hy
      simp only [entries, List.mem_append, List.mem_singleton] at hy ⊢
      rcases hy with hy | hy
      · exact Or.inr (Or.inl hy)
      · exact Or.inl hy
  · rw [← rewind_entries r]
    rw [Ring.overwrite] at hadd
    split at hadd
    · cases hadd
    · next x es habove =>
        split at hadd
        · exact replace_live habove hadd hy
        · exact merge_live habove hadd hy hlive

end Ring

end Theo
