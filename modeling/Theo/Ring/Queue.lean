import Theo.Lib.Fifo
import Theo.Ring.Advance

set_option autoImplicit false

/-! # The ring as a queue

The chunks behind the cut and then those in front of it are in the order in which they will be
overwritten (`order`): an insertion takes from the front and adds to the end. How long a chunk stays
follows from how far the cut has to go until it comes by again: at least `ahead` bytes and at most
`limit` bytes. -/

namespace Theo

open BucketIndex

/-- The checksums of the chunks of `es`. -/
def chunkKeys (es : List Entry) : List Checksum :=
  (es.filter fun e => !e.free).map Entry.checksum

theorem chunkKeys_append (xs ys : List Entry) :
    chunkKeys (xs ++ ys) = chunkKeys xs ++ chunkKeys ys := by
  rw [chunkKeys, List.filter_append, List.map_append, chunkKeys, chunkKeys]

theorem liveAt_keys (a : Nat) (es : List Entry) :
    (liveAt a es).map CellDirEntry.checksum = chunkKeys es := by
  induction es generalizing a with
  | nil => rfl
  | cons e es ih =>
      cases hfree : e.free with
      | true => rw [liveAt_free hfree, ih, chunkKeys, chunkKeys, List.filter_cons_of_neg (by simp [hfree])]
      | false =>
          rw [liveAt_live hfree, List.map_cons, ih, chunkKeys, chunkKeys,
            List.filter_cons_of_pos (by simp [hfree]), List.map_cons]
          rfl

/-- The entry `y` lies at offset `p`, where `es` begins at `a`. -/
def LiesAt (a : Nat) (es : List Entry) (y : Entry) (p : Nat) : Prop :=
  ∃ xs ys, es = xs ++ y :: ys ∧ p = a + span xs

section

variable {a p : Nat} {xs ys es : List Entry} {y : Entry}

theorem LiesAt.mem (h : LiesAt a es y p) : y ∈ es := by
  obtain ⟨xs, ys, rfl, -⟩ := h
  simp

theorem liesAt_append :
    LiesAt a (xs ++ ys) y p ↔ LiesAt a xs y p ∨ LiesAt (a + span xs) ys y p := by
  constructor
  · rintro ⟨zs, ws, hsplit, rfl⟩
    rcases List.append_eq_append_iff.1 hsplit with ⟨mid, rfl, rfl⟩ | ⟨mid, rfl, hmid⟩
    · exact Or.inr ⟨mid, ws, rfl, by rw [span_append, Nat.add_assoc]⟩
    · cases mid with
      | nil => exact Or.inr ⟨[], ws, hmid.symm, by simp⟩
      | cons z mid =>
          rw [List.cons_append, List.cons.injEq] at hmid
          obtain ⟨rfl, -⟩ := hmid
          exact Or.inl ⟨zs, mid, rfl, rfl⟩
  · rintro (⟨zs, ws, rfl, rfl⟩ | ⟨zs, ws, rfl, rfl⟩)
    · exact ⟨zs, ws ++ ys, by simp, rfl⟩
    · exact ⟨xs ++ zs, ws, by simp, by rw [span_append, Nat.add_assoc]⟩

theorem LiesAt.append_left (h : LiesAt a xs y p) (ys : List Entry) : LiesAt a (xs ++ ys) y p :=
  liesAt_append.2 (Or.inl h)

end

namespace Ring

variable {r r' : Ring} {e y : Entry} {taken rest gone holes stored : List Entry} {p : Nat}

/-! ## The order of the chunks -/

/-- The chunks in the order in which they will be overwritten. -/
def order (r : Ring) : List Checksum := chunkKeys (r.above ++ r.below)

theorem mem_order {c : Checksum} : c ∈ r.order ↔ ¬ r.Fresh c := by
  rw [Fresh, not_not, liveAt_keys, order, entries, chunkKeys_append, chunkKeys_append,
    List.mem_append, List.mem_append, or_comm]

theorem rewind_order (r : Ring) : r.rewind.order = r.order := by
  rw [Ring.rewind]
  split
  · next habove => rw [order, order, habove, List.append_nil, List.nil_append]
  · rfl

theorem Overwrites.takes (h : Overwrites r e r' taken rest gone holes stored)
    (he : e.free = false) : Fifo.Takes r.order e.checksum r'.order := by
  refine ⟨chunkKeys taken, chunkKeys rest, chunkKeys gone, chunkKeys r.below, chunkKeys stored,
    ?_, ?_, ?_, ?_⟩
  · rw [order, h.split]
    simp only [chunkKeys_append, List.append_assoc]
  · rcases h.given with rfl | ⟨y, rfl, -⟩
    · exact Nat.zero_le _
    · rw [chunkKeys, List.length_map]
      exact List.length_filter_le _ _
  · rcases h.stored_or_lost with rfl | ⟨rfl, -, -⟩
    · exact Or.inl (by rw [chunkKeys, List.filter_cons_of_pos (by simp [he])]; rfl)
    · exact Or.inr rfl
  · have hholes : chunkKeys holes = [] := by
      rw [chunkKeys, List.map_eq_nil_iff, List.filter_eq_nil_iff]
      intro y hy
      rw [h.holes_free y hy]
      decide
    rw [order, h.above, h.below]
    simp only [chunkKeys_append, hholes, List.nil_append]

/-- An insertion takes the place of the oldest chunks, and makes its own the newest. -/
theorem Inv.add_takes (h : Inv chunkerLimits r) (he : e.IsChunk chunkerLimits)
    (hadd : r.add e = some r') : Fifo.Takes r.order e.checksum r'.order := by
  rcases h.add_moves he hadd with ⟨habove, -, rfl⟩ | ⟨hno, taken, rest, gone, holes, stored, hover⟩
  · refine ⟨[], [], [], r.order, [e.checksum], rfl, Nat.zero_le _, Or.inl rfl, ?_⟩
    have hlast : chunkKeys [e] = [e.checksum] := by
      rw [chunkKeys, List.filter_cons_of_pos (by simp [he.live])]
      rfl
    rw [order, order, push, habove]
    simp only [List.nil_append, chunkKeys_append, hlast]
  · rw [← rewind_order]
    exact hover.takes he.live

/-! ## How far the cut has to go -/

/-- At least so many bytes are inserted until the cut comes to offset `p`. -/
def ahead (r : Ring) (p : Nat) : Nat := if p < r.next then (977000 - r.next) + p else p - r.next

end Ring

end Theo
