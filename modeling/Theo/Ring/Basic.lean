import Theo.Proofs.Directory

set_option autoImplicit false

/-! # The ring of a cell, abstractly

What a cell is for, away from its bytes: a sequence of entries that starts at offset 0 and ends
below the top, cut where the next insertion goes, and the index over the entries that hold a
chunk. An insertion appends at the top while there is room and otherwise takes the place of the
entries from the cut on, the entry below the top being given up when the index needs its room. -/

namespace Theo

open BucketIndex

/-- An entry of the ring: a chunk, or, when `free`, a hole of `size` bytes. -/
structure Entry where
  checksum : Checksum
  size : Nat
  free : Bool
  data : List UInt8
deriving DecidableEq

/-- The bytes an entry takes, its header included. -/
def Entry.span (e : Entry) : Nat := e.size + 36

def Entry.chunk (c : Checksum) (size : Nat) (data : List UInt8) : Entry := ⟨c, size, false, data⟩

theorem zeros_length : (List.replicate 32 (0 : UInt8)).length = 32 := List.length_replicate

def Entry.hole (size : Nat) : Entry := ⟨⟨List.replicate 32 0, zeros_length⟩, size, true, []⟩

def span : List Entry → Nat
  | [] => 0
  | e :: es => e.span + span es

/-- The size of the last entry, or `prev` if there is none. -/
def prevOf (prev : Nat) : List Entry → Nat
  | [] => prev
  | e :: es => prevOf e.size es

/-- The index entries of the chunks in `es`, the first of which lies at offset `a`. -/
def liveAt (a : Nat) : List Entry → List CellDirEntry
  | [] => []
  | e :: es =>
      if e.free then liveAt (a + e.span) es
      else cellDirEntrySet e.checksum a :: liveAt (a + e.span) es

def liveCount : List Entry → Nat
  | [] => 0
  | e :: es => (if e.free then 0 else 1) + liveCount es

def liveBytes : List Entry → Nat
  | [] => 0
  | e :: es => (if e.free then 0 else e.size) + liveBytes es

@[simp] theorem span_nil : span [] = 0 := rfl
@[simp] theorem span_cons (e : Entry) (es : List Entry) : span (e :: es) = e.span + span es := rfl

@[simp]
theorem span_append (xs ys : List Entry) : span (xs ++ ys) = span xs + span ys := by
  induction xs with
  | nil => simp
  | cons x xs ih => simp [ih, Nat.add_assoc]

@[simp]
theorem prevOf_append (prev : Nat) (xs ys : List Entry) :
    prevOf prev (xs ++ ys) = prevOf (prevOf prev xs) ys := by
  induction xs generalizing prev with
  | nil => rfl
  | cons x xs ih => exact ih x.size

theorem liveAt_append (a : Nat) (xs ys : List Entry) :
    liveAt a (xs ++ ys) = liveAt a xs ++ liveAt (a + span xs) ys := by
  induction xs generalizing a with
  | nil => rfl
  | cons x xs ih =>
      rw [List.cons_append, liveAt, liveAt, ih, span_cons, Nat.add_assoc]
      split
      · rfl
      · rfl

@[simp]
theorem liveCount_append (xs ys : List Entry) :
    liveCount (xs ++ ys) = liveCount xs + liveCount ys := by
  induction xs with
  | nil => simp [liveCount]
  | cons x xs ih => simp [liveCount, ih, Nat.add_assoc]

@[simp]
theorem liveBytes_append (xs ys : List Entry) :
    liveBytes (xs ++ ys) = liveBytes xs + liveBytes ys := by
  induction xs with
  | nil => simp [liveBytes]
  | cons x xs ih => simp [liveBytes, ih, Nat.add_assoc]

theorem liveAt_length (a : Nat) (es : List Entry) : (liveAt a es).length = liveCount es := by
  induction es generalizing a with
  | nil => rfl
  | cons e es ih =>
      rw [liveAt, liveCount]
      split
      · rw [ih, Nat.zero_add]
      · rw [List.length_cons, ih, Nat.add_comm]

theorem liveBytes_le_span (es : List Entry) : liveBytes es + 36 * liveCount es ≤ span es := by
  induction es with
  | nil => simp [liveBytes, liveCount]
  | cons e es ih =>
      rw [liveBytes, liveCount, span_cons, Entry.span]
      split <;> omega

/-- Chunks of at least `lo` bytes bound their number. -/
theorem liveCount_mul_le {lo : Nat} {es : List Entry}
    (h : ∀ e ∈ es, e.free = false → lo ≤ e.size) : (lo + 36) * liveCount es ≤ span es := by
  induction es with
  | nil => simp [liveCount]
  | cons e es ih =>
      have htail := ih fun e' he' => h e' (List.mem_cons_of_mem _ he')
      rw [liveCount, span_cons, Entry.span]
      split
      · rw [Nat.zero_add]
        omega
      · next hfree =>
          have hsize := h e List.mem_cons_self (by simpa using hfree)
          rw [Nat.mul_add, Nat.mul_one]
          omega

/-- Where every entry is a chunk, there is a byte of data unless there is no entry. -/
theorem liveBytes_pos {es : List Entry} (hlive : ∀ e ∈ es, e.free = false)
    (hsize : ∀ e ∈ es, 1 ≤ e.size) (hspan : 0 < span es) : 0 < liveBytes es := by
  cases es with
  | nil => simp at hspan
  | cons e es =>
      have := hsize e List.mem_cons_self
      rw [liveBytes, hlive e List.mem_cons_self]
      simp only [Bool.false_eq_true, if_false]
      omega

theorem liveAt_mem_offset {a : Nat} {es : List Entry} {x : CellDirEntry} (hx : x ∈ liveAt a es) :
    ∃ xs e ys, es = xs ++ e :: ys ∧ e.free = false ∧
      x = cellDirEntrySet e.checksum (a + span xs) := by
  induction es generalizing a with
  | nil => simp [liveAt] at hx
  | cons e es ih =>
      rw [liveAt] at hx
      split at hx
      · obtain ⟨xs, e', ys, rfl, hfree, rfl⟩ := ih hx
        exact ⟨e :: xs, e', ys, rfl, hfree, by simp [Nat.add_assoc]⟩
      · next hfree =>
          rcases List.mem_cons.1 hx with rfl | hx
          · exact ⟨[], e, es, rfl, by simpa using hfree, rfl⟩
          · obtain ⟨xs, e', ys, rfl, hfree', rfl⟩ := ih hx
            exact ⟨e :: xs, e', ys, rfl, hfree', by simp [Nat.add_assoc]⟩

/-! ## Merging -/

/-- Take entries until `required` bytes are free, `free` of them to begin with: the free bytes
reached, the entries taken and those left. -/
def gather (required : Nat) : Nat → List Entry → Nat × List Entry × List Entry
  | free, [] => (free, [], [])
  | free, e :: es =>
      if free < required then
        let merged := gather required (free + e.span) es
        (merged.1, e :: merged.2.1, merged.2.2)
      else (free, [], e :: es)

theorem gather_split (required free : Nat) (es : List Entry) :
    es = (gather required free es).2.1 ++ (gather required free es).2.2 := by
  induction es generalizing free with
  | nil => rfl
  | cons e es ih =>
      rw [gather]
      split
      · simpa using ih (free + e.span)
      · rfl

theorem gather_free (required free : Nat) (es : List Entry) :
    (gather required free es).1 = free + span (gather required free es).2.1 := by
  induction es generalizing free with
  | nil => rfl
  | cons e es ih =>
      rw [gather]
      split
      · have hrest := ih (free + e.span)
        simp only [span_cons]
        omega
      · rfl

/-- Merging stops short only where no entry is left. -/
theorem gather_short (required free : Nat) (es : List Entry)
    (h : (gather required free es).1 < required) : (gather required free es).2.2 = [] := by
  induction es generalizing free with
  | nil => rfl
  | cons e es ih =>
      rw [gather] at h ⊢
      split
      · next hlt =>
          rw [if_pos hlt] at h
          exact ih _ h
      · next hge =>
          rw [if_neg hge] at h
          exact absurd h hge

/-- Where an entry is left, merging has found enough. -/
theorem gather_enough (required free : Nat) (es : List Entry)
    (h : (gather required free es).2.2 ≠ []) : required ≤ (gather required free es).1 :=
  Nat.le_of_not_lt fun hlt => h (gather_short required free es hlt)

/-- Merging does not take more than it needs: the entry taken last was still needed. -/
theorem gather_le (required free : Nat) {M : Nat} {es : List Entry} (hM : ∀ e ∈ es, e.span ≤ M) :
    (gather required free es).1 ≤ max free (required + M) := by
  induction es generalizing free with
  | nil => exact Nat.le_max_left _ _
  | cons e es ih =>
      rw [gather]
      split
      · have hrest := ih (free + e.span) fun e' he' => hM e' (List.mem_cons_of_mem _ he')
        have hspan := hM e List.mem_cons_self
        simp only
        omega
      · exact Nat.le_max_left _ _

/-! ## Insertion -/

/-- Bytes between the top entry at offset `top` and the overflow records of `dir`. -/
def bodyRoom (top : Nat) (dir : Dir) : Nat := 1019836 - (top + 36 * dir.stack.length)

/-- Take the chunks of `es` out of the index. -/
def removeAll : Dir → List Entry → Option Dir
  | dir, [] => some dir
  | dir, e :: es =>
      if e.free then removeAll dir es else (dir.remove e.checksum).bind (removeAll · es)

theorem removeAll_append (dir : Dir) (xs ys : List Entry) :
    removeAll dir (xs ++ ys) = (removeAll dir xs).bind (removeAll · ys) := by
  induction xs generalizing dir with
  | nil => rfl
  | cons x xs ih =>
      rw [List.cons_append, removeAll, removeAll]
      split
      · exact ih dir
      · rw [Option.bind_assoc]
        exact congrArg _ (funext ih)

theorem removeAll_noFuller {dir dir' : Dir} {es : List Entry} (h : removeAll dir es = some dir') :
    Index.NoFuller dir' dir := by
  induction es generalizing dir with
  | nil =>
      rw [removeAll, Option.some.injEq] at h
      rw [h]
      exact Index.NoFuller.refl dir'
  | cons e es ih =>
      rw [removeAll] at h
      split at h
      · exact ih h
      · obtain ⟨dir₁, hremove, h⟩ := Option.bind_eq_some_iff.1 h
        exact (ih h).trans (Index.remove_noFuller hremove)

/-- Room for one more index entry: if there is none, the entry below the top, the last of `rest`,
is given up. It cannot be the entry that is being inserted. -/
def makeRoom (top : Nat) (dir : Dir) (rest : List Entry) : Option (List Entry × Dir) :=
  if 36 ≤ bodyRoom top dir then some (rest, dir)
  else
    match rest.getLast? with
    | none => none
    | some last => (dir.remove last.checksum).map fun dir' => (rest.dropLast, dir')

/-- Making room keeps everything, or gives up the last entry. -/
theorem makeRoom_eq_some {top : Nat} {dir dir' : Dir} {rest rest' : List Entry}
    (h : makeRoom top dir rest = some (rest', dir')) :
    (36 ≤ bodyRoom top dir ∧ rest' = rest ∧ dir' = dir) ∨
    ∃ y, bodyRoom top dir < 36 ∧ rest = rest' ++ [y] ∧ dir.remove y.checksum = some dir' := by
  rw [makeRoom] at h
  split at h
  · next hroom =>
      rw [Option.some.injEq, Prod.mk.injEq] at h
      exact Or.inl ⟨hroom, h.1.symm, h.2.symm⟩
  · next hroom =>
      rcases List.eq_nil_or_concat rest with rfl | ⟨rest₁, y, rfl⟩
      · cases h
      · rw [List.concat_eq_append, List.getLast?_concat, List.dropLast_concat] at h
        obtain ⟨dir₁, hremove, heq⟩ := Option.map_eq_some_iff.1 h
        rw [Prod.mk.injEq] at heq
        obtain ⟨rfl, rfl⟩ := heq
        exact Or.inr ⟨y, Nat.lt_of_not_le hroom, List.concat_eq_append, hremove⟩

/-- Making room fails where there is no entry to give up, or the index does not have it. -/
theorem makeRoom_none {top : Nat} {dir : Dir} {rest : List Entry} (h : makeRoom top dir rest = none) :
    bodyRoom top dir < 36 ∧
      (rest = [] ∨ ∃ rest' y, rest = rest' ++ [y] ∧ dir.remove y.checksum = none) := by
  rw [makeRoom] at h
  split at h
  · cases h
  · next hroom =>
      refine ⟨Nat.lt_of_not_le hroom, ?_⟩
      rcases List.eq_nil_or_concat rest with rfl | ⟨rest', y, rfl⟩
      · exact Or.inl rfl
      · rw [List.concat_eq_append, List.getLast?_concat] at h
        exact Or.inr ⟨rest', y, List.concat_eq_append, Option.map_eq_none_iff.1 h⟩

/-- A cell: the entries in front of the next insertion, those behind it, and the index. -/
structure Ring where
  below : List Entry
  above : List Entry
  dir : Dir

namespace Ring

def entries (r : Ring) : List Entry := r.below ++ r.above

/-- The offset of the top entry. -/
def top (r : Ring) : Nat := span r.entries

/-- The offset of the next insertion. -/
def next (r : Ring) : Nat := span r.below

/-- There is room for `e` and an index entry above the cut, if nothing lies behind it. -/
def fits (r : Ring) (e : Entry) : Bool := e.size + 72 ≤ bodyRoom r.next r.dir

theorem fits_iff (r : Ring) (e : Entry) : r.fits e = true ↔ e.size + 72 ≤ bodyRoom r.next r.dir :=
  decide_eq_true_iff

/-- The index entry of `e`, inserted at the cut. -/
def place (r : Ring) (e : Entry) : CellDirEntry := cellDirEntrySet e.checksum r.next

/-- Insert at the top, where nothing lies behind the cut. -/
def push (r : Ring) (e : Entry) : Ring := ⟨r.below ++ [e], [], r.dir.add (r.place e)⟩

@[simp]
theorem push_entries (r : Ring) (e : Entry) : (r.push e).entries = r.below ++ [e] := by
  simp only [push, entries, List.append_nil]

/-- Insert in the place of the first entry `x` behind the cut, which has the size of `e`. -/
def replace (r : Ring) (x : Entry) (es : List Entry) (e : Entry) : Option Ring :=
  (removeAll r.dir [x]).bind fun dir =>
    (makeRoom r.top dir es).map fun (rest, dir) => ⟨r.below ++ [e], rest, dir.add (r.place e)⟩

/-- Insert in the place of as many entries from `x` on as it takes. When they end at the top, the
top moves down to `x` and the insertion goes there, if there is room for it. -/
def merge (r : Ring) (x : Entry) (es : List Entry) (e : Entry) : Option Ring :=
  let merged := gather (e.size + 36) x.size es
  (removeAll r.dir (x :: merged.2.1)).bind fun dir =>
    match merged.2.2 with
    | [] =>
        let r' : Ring := ⟨r.below, [], dir⟩
        some (if r'.fits e then r'.push e else r')
    | y :: ys =>
        (makeRoom r.top dir (y :: ys)).map fun (rest, dir) =>
          ⟨r.below ++ [e], Entry.hole (merged.1 - (e.size + 36)) :: rest, dir.add (r.place e)⟩

/-- Insert in the place of entries behind the cut. -/
def overwrite (r : Ring) (e : Entry) : Option Ring :=
  match r.above with
  | [] => none
  | x :: es => if x.size = e.size then r.replace x es e else r.merge x es e

/-- Where an insertion overwrites: at the end of a lap the cut goes back to the start. -/
def rewind (r : Ring) : Ring := if r.above = [] then ⟨[], r.below, r.dir⟩ else r

/-- Insert a chunk; `none` if the insertion aborts. -/
def add (r : Ring) (e : Entry) : Option Ring :=
  if r.above = [] ∧ r.fits e then some (r.push e) else r.rewind.overwrite e

end Ring

end Theo
