import Mathlib.Data.List.Nodup
import Mathlib.Data.List.Perm.Subperm

set_option autoImplicit false

/-! # A bucketed index with a shared overflow stack

An index keeps each entry either in one of the few slots of its bucket or on an overflow stack
that all buckets share; a counter for each bucket says how many of its entries spilled. Removing
an entry from the stack moves the newest one into its place. Entries never move back into a slot.
The counters have a largest value `n`, behind which they start over.

`Index.Holds idx L` says that the index holds exactly the entries of `L`, whose keys are distinct:
each in a slot of its own bucket or on the stack, the counters being exact. Adding, removing and
finding are then those of a finite map with the entries `L`. -/

namespace BucketIndex

variable {E K : Type}

/-! ## The index -/

/-- Slots and spill counter of each bucket, and the stack they spill to, newest first. -/
structure Index (E : Type) where
  slots : Nat → List (Option E)
  spilled : Nat → Nat
  stack : List E

namespace Index

variable (key : E → K) (bucket : K → Nat)

/-- The entries of one bucket. -/
def entriesOf (idx : Index E) (b : Nat) : List E :=
  (idx.slots b).filterMap id ++ idx.stack.filter (fun x => bucket (key x) = b)

/-- The index holds exactly the entries of `L`. -/
structure Holds (idx : Index E) (L : List E) : Prop where
  own : ∀ b, ∀ e ∈ (idx.slots b).filterMap id, bucket (key e) = b
  spilled_eq : ∀ b, idx.spilled b = idx.stack.countP (fun x => bucket (key x) = b)
  perm : ∀ b, (idx.entriesOf key bucket b).Perm (L.filter (fun x => bucket (key x) = b))
  nodup : (L.map key).Nodup

variable {key bucket} {idx : Index E} {L : List E}

namespace Holds

theorem of_perm (h : idx.Holds key bucket L) {L' : List E} (hL : L.Perm L') :
    idx.Holds key bucket L' where
  own := h.own
  spilled_eq := h.spilled_eq
  perm b := (h.perm b).trans (hL.filter _)
  nodup := (hL.map key).nodup_iff.1 h.nodup

/-- Two entries with one key are one entry. -/
theorem key_inj (h : idx.Holds key bucket L) {e e' : E} (he : e ∈ L) (he' : e' ∈ L)
    (hk : key e = key e') : e = e' := List.inj_on_of_nodup_map h.nodup he he' hk

theorem mem_of_slot (h : idx.Holds key bucket L) {b : Nat} {e : E}
    (he : e ∈ (idx.slots b).filterMap id) : e ∈ L :=
  (List.mem_filter.1 ((h.perm b).subset (List.mem_append_left _ he))).1

theorem mem_of_over (h : idx.Holds key bucket L) {e : E} (he : e ∈ idx.stack) : e ∈ L := by
  have hfilter : e ∈ idx.stack.filter (fun x => bucket (key x) = bucket (key e)) := by simpa using he
  exact (List.mem_filter.1 ((h.perm _).subset (List.mem_append_right _ hfilter))).1

/-- An entry of the index stands in a slot of its bucket or on the stack, and then the bucket's
counter is positive. -/
theorem slot_or_over (h : idx.Holds key bucket L) {e : E} (he : e ∈ L) :
    e ∈ (idx.slots (bucket (key e))).filterMap id ∨
      e ∈ idx.stack ∧ 0 < idx.spilled (bucket (key e)) := by
  have hfilter : e ∈ L.filter (fun x => bucket (key x) = bucket (key e)) := by simpa using he
  rcases List.mem_append.1 ((h.perm _).symm.subset hfilter) with hs | ho
  · exact Or.inl hs
  · have hover := (List.mem_filter.1 ho).1
    refine Or.inr ⟨hover, ?_⟩
    rw [h.spilled_eq]
    exact List.countP_pos_iff.2 ⟨e, hover, by simp⟩

/-- A bucket holds a key at most once, slots and stack together. -/
theorem entriesOf_nodup (h : idx.Holds key bucket L) (b : Nat) :
    ((idx.entriesOf key bucket b).map key).Nodup :=
  ((h.perm b).map key).nodup_iff.2 (h.nodup.sublist (List.filter_sublist.map key))

theorem slots_nodup (h : idx.Holds key bucket L) (b : Nat) :
    (((idx.slots b).filterMap id).map key).Nodup :=
  (h.entriesOf_nodup b).sublist ((List.sublist_append_left _ _).map key)

/-- An entry in a slot and one on the stack have different keys. -/
theorem key_ne (h : idx.Holds key bucket L) {b : Nat} {x y : E} (hx : x ∈ (idx.slots b).filterMap id)
    (hy : y ∈ idx.stack) : key x ≠ key y := by
  intro hxy
  have hown : bucket (key y) = b := by
    rw [← hxy]
    exact h.own b x hx
  have hdup := h.entriesOf_nodup b
  rw [entriesOf, List.map_append, List.nodup_append] at hdup
  have hfilter : y ∈ idx.stack.filter fun z => bucket (key z) = b :=
    List.mem_filter.2 ⟨hy, decide_eq_true hown⟩
  exact hdup.2.2 (key x) (List.mem_map_of_mem hx) (key y) (List.mem_map_of_mem hfilter) hxy

theorem over_nodup (h : idx.Holds key bucket L) : (idx.stack.map key).Nodup := by
  have hbucket : ∀ b, ((idx.stack.filter (fun x => bucket (key x) = b)).map key).Nodup := fun b =>
    (h.entriesOf_nodup b).sublist ((List.sublist_append_right _ _).map key)
  generalize idx.stack = xs at hbucket
  induction xs with
  | nil => simp
  | cons x xs ih =>
      rw [List.map_cons, List.nodup_cons]
      constructor
      · intro hx
        obtain ⟨y, hy, hxy⟩ := List.mem_map.1 hx
        have hdup := hbucket (bucket (key x))
        rw [List.filter_cons_of_pos (by simp), List.map_cons, List.nodup_cons] at hdup
        exact hdup.1 (List.mem_map.2 ⟨y, by simp [hy, hxy], hxy⟩)
      · refine ih fun b => (hbucket b).sublist ?_
        exact ((List.sublist_cons_self x xs).filter _).map key

/-- Sorting a list into the buckets below `n` keeps the elements that belong there. -/
theorem flatMap_filter_perm (f : E → Nat) (xs : List E) (n : Nat) :
    ((List.range n).flatMap fun b => xs.filter (f · = b)).Perm (xs.filter (f · < n)) := by
  induction n with
  | zero => simp
  | succ n ih =>
      have hsplit := (List.filter_append_perm (f · < n) (xs.filter (f · < n + 1))).symm
      have hbelow : (xs.filter (f · < n + 1)).filter (f · < n) = xs.filter (f · < n) := by
        rw [List.filter_filter]
        congr 1
        funext x
        rw [Bool.eq_iff_iff]
        simp only [Bool.and_eq_true, decide_eq_true_eq]
        omega
      have hlast : (xs.filter (f · < n + 1)).filter (fun x => !decide (f x < n)) =
          xs.filter (f · = n) := by
        rw [List.filter_filter]
        congr 1
        funext x
        rw [Bool.eq_iff_iff]
        simp only [Bool.and_eq_true, Bool.not_eq_true', decide_eq_false_iff_not, decide_eq_true_eq]
        omega
      rw [hbelow, hlast] at hsplit
      rw [List.range_succ, List.flatMap_append, List.flatMap_singleton]
      exact (ih.append_right _).trans hsplit.symm

theorem flatMap_append_perm {I : Type*} (is : List I) (f g : I → List E) :
    (is.flatMap fun i => f i ++ g i).Perm (is.flatMap f ++ is.flatMap g) := by
  induction is with
  | nil => simp
  | cons i is ih =>
      simp only [List.flatMap_cons, List.append_assoc]
      refine List.Perm.append_left _ ((ih.append_left _).trans ?_)
      rw [← List.append_assoc, ← List.append_assoc]
      exact List.perm_append_comm.append_right _

/-- All slots together and the stack hold the entries of the index. -/
theorem all_perm (h : idx.Holds key bucket L) {n : Nat} (hn : ∀ c, bucket c < n) :
    ((List.range n).flatMap (fun b => (idx.slots b).filterMap id) ++ idx.stack).Perm L := by
  have hall : ∀ xs : List E,
      ((List.range n).flatMap fun b => xs.filter fun x => bucket (key x) = b).Perm xs := by
    intro xs
    have := flatMap_filter_perm (fun x => bucket (key x)) xs n
    rwa [List.filter_eq_self.2 fun x _ => decide_eq_true (hn (key x))] at this
  refine (((hall idx.stack).symm.append_left _).trans
    ((flatMap_append_perm _ _ _).symm.trans ?_)).trans (hall L)
  exact List.Perm.flatMap_left _ fun b _ => h.perm b

theorem spilled_le (h : idx.Holds key bucket L) (b : Nat) : idx.spilled b ≤ idx.stack.length := by
  rw [h.spilled_eq]
  exact List.countP_le_length

end Holds

end Index

variable [DecidableEq K]

/-! ## Slots -/

/-- Put `e` in the first empty slot. -/
def slotsAdd : List (Option E) → E → Option (List (Option E))
  | [], _ => none
  | none :: slots, e => some (some e :: slots)
  | some x :: slots, e => (slotsAdd slots e).map (some x :: ·)

def slotsFind (key : E → K) (c : K) : List (Option E) → Option E
  | [] => none
  | none :: slots => slotsFind key c slots
  | some x :: slots => if key x = c then some x else slotsFind key c slots

/-- Empty the first slot with key `c`. -/
def slotsRemove (key : E → K) (c : K) : List (Option E) → Option (List (Option E))
  | [] => none
  | none :: slots => (slotsRemove key c slots).map (none :: ·)
  | some x :: slots =>
      if key x = c then some (none :: slots) else (slotsRemove key c slots).map (some x :: ·)

theorem slotsAdd_length {slots slots' : List (Option E)} {e : E}
    (h : slotsAdd slots e = some slots') : slots'.length = slots.length := by
  induction slots generalizing slots' with
  | nil => simp [slotsAdd] at h
  | cons s slots ih =>
      cases s with
      | none =>
          simp only [slotsAdd, Option.some.injEq] at h
          simp [← h]
      | some x =>
          simp only [slotsAdd, Option.map_eq_some_iff] at h
          obtain ⟨rest, hrest, rfl⟩ := h
          simp [ih hrest]

/-- An entry finds no slot only where none is empty. -/
theorem slotsAdd_none {slots : List (Option E)} {e : E} (h : slotsAdd slots e = none) :
    none ∉ slots := by
  induction slots with
  | nil => simp
  | cons s slots ih =>
      cases s with
      | none => simp [slotsAdd] at h
      | some x =>
          rw [slotsAdd, Option.map_eq_none_iff] at h
          simpa using ih h

theorem slotsAdd_perm {slots slots' : List (Option E)} {e : E}
    (h : slotsAdd slots e = some slots') :
    (slots'.filterMap id).Perm (e :: slots.filterMap id) := by
  induction slots generalizing slots' with
  | nil => simp [slotsAdd] at h
  | cons s slots ih =>
      cases s with
      | none =>
          simp only [slotsAdd, Option.some.injEq] at h
          subst h
          simp
      | some x =>
          simp only [slotsAdd, Option.map_eq_some_iff] at h
          obtain ⟨rest, hrest, rfl⟩ := h
          simp only [List.filterMap_cons, id]
          exact ((ih hrest).cons x).trans (List.Perm.swap e x _)

theorem slotsFind_some {key : E → K} {c : K} {slots : List (Option E)} {e : E}
    (h : slotsFind key c slots = some e) : e ∈ slots.filterMap id ∧ key e = c := by
  induction slots with
  | nil => simp [slotsFind] at h
  | cons s slots ih =>
      cases s with
      | none => simpa [slotsFind] using ih h
      | some x =>
          rw [slotsFind] at h
          split at h
          · next hx =>
              rw [Option.some.injEq] at h
              subst h
              exact ⟨by simp, hx⟩
          · exact ⟨by simpa using Or.inr (ih h).1, (ih h).2⟩

theorem slotsFind_none {key : E → K} {c : K} {slots : List (Option E)}
    (h : slotsFind key c slots = none) : ∀ e ∈ slots.filterMap id, key e ≠ c := by
  induction slots with
  | nil => simp
  | cons s slots ih =>
      cases s with
      | none => simpa [slotsFind] using ih h
      | some x =>
          rw [slotsFind] at h
          split at h
          · cases h
          · next hx =>
              intro e he
              simp only [List.filterMap_cons, id, List.mem_cons] at he
              rcases he with rfl | he
              · exact hx
              · exact ih h e he

theorem slotsRemove_length {key : E → K} {c : K} {slots slots' : List (Option E)}
    (h : slotsRemove key c slots = some slots') : slots'.length = slots.length := by
  induction slots generalizing slots' with
  | nil => simp [slotsRemove] at h
  | cons s slots ih =>
      cases s with
      | none =>
          simp only [slotsRemove, Option.map_eq_some_iff] at h
          obtain ⟨rest, hrest, rfl⟩ := h
          simp [ih hrest]
      | some x =>
          rw [slotsRemove] at h
          split at h
          · rw [Option.some.injEq] at h
            simp [← h]
          · rw [Option.map_eq_some_iff] at h
            obtain ⟨rest, hrest, rfl⟩ := h
            simp [ih hrest]

/-- Removing leaves the empty slots empty. -/
theorem slotsRemove_empty {key : E → K} {c : K} {slots slots' : List (Option E)}
    (h : slotsRemove key c slots = some slots') (hempty : none ∈ slots) : none ∈ slots' := by
  induction slots generalizing slots' with
  | nil => simp at hempty
  | cons s slots ih =>
      cases s with
      | none =>
          simp only [slotsRemove, Option.map_eq_some_iff] at h
          obtain ⟨rest, -, rfl⟩ := h
          exact List.mem_cons_self
      | some x =>
          rw [slotsRemove] at h
          split at h
          · rw [Option.some.injEq] at h
            rw [← h]
            exact List.mem_cons_self
          · rw [Option.map_eq_some_iff] at h
            obtain ⟨rest, hrest, rfl⟩ := h
            exact List.mem_cons_of_mem _ (ih hrest (by simpa using hempty))

theorem slotsRemove_perm {key : E → K} {c : K} {slots slots' : List (Option E)}
    (h : slotsRemove key c slots = some slots') :
    ∃ e, key e = c ∧ (slots.filterMap id).Perm (e :: slots'.filterMap id) := by
  induction slots generalizing slots' with
  | nil => simp [slotsRemove] at h
  | cons s slots ih =>
      cases s with
      | none =>
          simp only [slotsRemove, Option.map_eq_some_iff] at h
          obtain ⟨rest, hrest, rfl⟩ := h
          simpa using ih hrest
      | some x =>
          rw [slotsRemove] at h
          split at h
          · next hx =>
              rw [Option.some.injEq] at h
              subst h
              exact ⟨x, hx, by simp⟩
          · rw [Option.map_eq_some_iff] at h
            obtain ⟨rest, hrest, rfl⟩ := h
            obtain ⟨e, he, hperm⟩ := ih hrest
            refine ⟨e, he, ?_⟩
            simp only [List.filterMap_cons, id]
            exact (hperm.cons x).trans (List.Perm.swap e x _)

theorem slotsRemove_none {key : E → K} {c : K} {slots : List (Option E)}
    (h : slotsRemove key c slots = none) : ∀ e ∈ slots.filterMap id, key e ≠ c := by
  induction slots with
  | nil => simp
  | cons s slots ih =>
      cases s with
      | none =>
          rw [slotsRemove, Option.map_eq_none_iff] at h
          simpa using ih h
      | some x =>
          rw [slotsRemove] at h
          split at h
          · cases h
          · next hx =>
              rw [Option.map_eq_none_iff] at h
              intro e he
              simp only [List.filterMap_cons, id, List.mem_cons] at he
              rcases he with rfl | he
              · exact hx
              · exact ih h e he

theorem slotsFind_eq_none_iff (key : E → K) (c : K) (slots : List (Option E)) :
    slotsFind key c slots = none ↔ slotsRemove key c slots = none := by
  induction slots with
  | nil => simp [slotsFind, slotsRemove]
  | cons s slots ih =>
      cases s with
      | none => simpa [slotsFind, slotsRemove] using ih
      | some x =>
          by_cases hx : key x = c
          · simp [slotsFind, slotsRemove, hx]
          · simpa [slotsFind, slotsRemove, hx] using ih

/-! ## The overflow stack -/

/-- Put `newest` in the place of the first entry with key `c`. -/
def overReplace (key : E → K) (c : K) (newest : E) : List E → Option (List E)
  | [] => none
  | y :: ys => if key y = c then some (newest :: ys) else (overReplace key c newest ys).map (y :: ·)

/-- Remove the entry with key `c` from the stack, newest first, filling its place with the newest. -/
def overRemove (key : E → K) (c : K) : List E → Option (List E)
  | [] => none
  | x :: xs => if key x = c then some xs else overReplace key c x xs

theorem overReplace_length {key : E → K} {c : K} {newest : E} {ys zs : List E}
    (h : overReplace key c newest ys = some zs) : zs.length = ys.length := by
  induction ys generalizing zs with
  | nil => simp [overReplace] at h
  | cons y ys ih =>
      rw [overReplace] at h
      split at h
      · rw [Option.some.injEq] at h
        simp [← h]
      · rw [Option.map_eq_some_iff] at h
        obtain ⟨rest, hrest, rfl⟩ := h
        simp [ih hrest]

theorem overReplace_perm {key : E → K} {c : K} {newest : E} {ys zs : List E}
    (h : overReplace key c newest ys = some zs) :
    ∃ e, key e = c ∧ (newest :: ys).Perm (e :: zs) := by
  induction ys generalizing zs with
  | nil => simp [overReplace] at h
  | cons y ys ih =>
      rw [overReplace] at h
      split at h
      · next hy =>
          rw [Option.some.injEq] at h
          subst h
          exact ⟨y, hy, List.Perm.swap y newest ys⟩
      · rw [Option.map_eq_some_iff] at h
        obtain ⟨rest, hrest, rfl⟩ := h
        obtain ⟨e, he, hperm⟩ := ih hrest
        refine ⟨e, he, ?_⟩
        calc (newest :: y :: ys).Perm (y :: newest :: ys) := List.Perm.swap y newest ys
          _ |>.Perm (y :: e :: rest) := hperm.cons y
          _ |>.Perm (e :: y :: rest) := List.Perm.swap e y rest

theorem overReplace_none {key : E → K} {c : K} {newest : E} {ys : List E}
    (h : overReplace key c newest ys = none) : ∀ e ∈ ys, key e ≠ c := by
  induction ys with
  | nil => simp
  | cons y ys ih =>
      rw [overReplace] at h
      split at h
      · cases h
      · next hy =>
          rw [Option.map_eq_none_iff] at h
          intro e he
          rcases List.mem_cons.1 he with rfl | he
          · exact hy
          · exact ih h e he

theorem overRemove_length {key : E → K} {c : K} {xs xs' : List E}
    (h : overRemove key c xs = some xs') : xs.length = xs'.length + 1 := by
  cases xs with
  | nil => simp [overRemove] at h
  | cons x xs =>
      rw [overRemove] at h
      split at h
      · rw [Option.some.injEq] at h
        simp [← h]
      · simp [overReplace_length h]

theorem overRemove_perm {key : E → K} {c : K} {xs xs' : List E}
    (h : overRemove key c xs = some xs') : ∃ e, key e = c ∧ xs.Perm (e :: xs') := by
  cases xs with
  | nil => simp [overRemove] at h
  | cons x xs =>
      rw [overRemove] at h
      split at h
      · next hx =>
          rw [Option.some.injEq] at h
          subst h
          exact ⟨x, hx, List.Perm.refl _⟩
      · exact overReplace_perm h

theorem overRemove_none {key : E → K} {c : K} {xs : List E}
    (h : overRemove key c xs = none) : ∀ e ∈ xs, key e ≠ c := by
  cases xs with
  | nil => simp
  | cons x xs =>
      rw [overRemove] at h
      split at h
      · cases h
      · next hx =>
          intro e he
          rcases List.mem_cons.1 he with rfl | he
          · exact hx
          · exact overReplace_none h e he

/-! ## The operations as those of a finite map -/

namespace Index

variable (n : Nat) (key : E → K) (bucket : K → Nat)

def add (idx : Index E) (e : E) : Index E :=
  let b := bucket (key e)
  match slotsAdd (idx.slots b) e with
  | some slots => { idx with slots := Function.update idx.slots b slots }
  | none => { idx with
      spilled := Function.update idx.spilled b ((idx.spilled b + 1) % (n + 1))
      stack := e :: idx.stack }

/-- The counter of bucket `b` is exact behind another entry: it is not counted, or not the last. -/
def Accepts (idx : Index E) (b : Nat) : Prop := none ∈ idx.slots b ∨ idx.spilled b < n

def find (idx : Index E) (c : K) : Option E :=
  match slotsFind key c (idx.slots (bucket c)) with
  | some e => some e
  | none => if 0 < idx.spilled (bucket c) then idx.stack.find? (key · = c) else none

def remove (idx : Index E) (c : K) : Option (Index E) :=
  let b := bucket c
  match slotsRemove key c (idx.slots b) with
  | some slots => some { idx with slots := Function.update idx.slots b slots }
  | none =>
      if 0 < idx.spilled b then
        (overRemove key c idx.stack).map fun stack =>
          { idx with spilled := Function.update idx.spilled b (idx.spilled b - 1), stack := stack }
      else none

variable {n key bucket} {idx : Index E} {L : List E}

theorem find_eq_some (h : idx.Holds key bucket L) {c : K} {e : E} :
    idx.find key bucket c = some e ↔ e ∈ L ∧ key e = c := by
  constructor
  · intro hfind
    rw [find] at hfind
    split at hfind
    · next x hx =>
        rw [Option.some.injEq] at hfind
        subst hfind
        exact ⟨h.mem_of_slot (slotsFind_some hx).1, (slotsFind_some hx).2⟩
    · split at hfind
      · exact ⟨h.mem_of_over (List.mem_of_find?_eq_some hfind),
          by simpa using List.find?_some hfind⟩
      · cases hfind
  · rintro ⟨he, rfl⟩
    rw [find]
    cases hs : slotsFind key (key e) (idx.slots (bucket (key e))) with
    | some x =>
        have hx := slotsFind_some hs
        rw [h.key_inj (h.mem_of_slot hx.1) he hx.2]
    | none =>
        rcases h.slot_or_over he with hslot | ⟨hover, hpos⟩
        · exact absurd rfl (slotsFind_none hs e hslot)
        · simp only [if_pos hpos]
          cases ho : idx.stack.find? (key · = key e) with
          | none => exact absurd (by simp) (List.find?_eq_none.1 ho e hover)
          | some x =>
              have hx : key x = key e := by simpa using List.find?_some ho
              rw [h.key_inj (h.mem_of_over (List.mem_of_find?_eq_some ho)) he hx]

theorem find_eq_none (h : idx.Holds key bucket L) {c : K} :
    idx.find key bucket c = none ↔ c ∉ L.map key := by
  rw [← Option.not_isSome_iff_eq_none, Option.isSome_iff_exists, not_iff_not]
  simp only [find_eq_some h, List.mem_map]

omit [DecidableEq K] in
theorem add_holds (h : idx.Holds key bucket L) {e : E} (he : key e ∉ L.map key)
    (haccepts : idx.Accepts n (bucket (key e))) :
    (idx.add n key bucket e).Holds key bucket (e :: L) := by
  have hnodup : ((e :: L).map key).Nodup := by
    rw [List.map_cons, List.nodup_cons]
    exact ⟨he, h.nodup⟩
  cases hs : slotsAdd (idx.slots (bucket (key e))) e with
  | some slots =>
      simp only [add, hs]
      refine ⟨fun b x hx => ?_, h.spilled_eq, fun b => ?_, hnodup⟩
      · by_cases hb : b = bucket (key e)
        · subst hb
          simp only [Function.update_self] at hx
          rcases List.mem_cons.1 ((slotsAdd_perm hs).subset hx) with rfl | hx
          · rfl
          · exact h.own _ x hx
        · simp only [Function.update_of_ne hb] at hx
          exact h.own b x hx
      · by_cases hb : b = bucket (key e)
        · subst hb
          simp only [entriesOf, Function.update_self]
          rw [List.filter_cons_of_pos (by simp)]
          exact ((slotsAdd_perm hs).append_right _).trans ((h.perm _).cons e)
        · simp only [entriesOf, Function.update_of_ne hb]
          rw [List.filter_cons_of_neg (by simpa using fun hh => hb hh.symm)]
          exact h.perm b
  | none =>
      have hlt := haccepts.resolve_left (slotsAdd_none hs)
      have hmod : (idx.spilled (bucket (key e)) + 1) % (n + 1) = idx.spilled (bucket (key e)) + 1 :=
        Nat.mod_eq_of_lt (by omega)
      simp only [add, hs, hmod]
      refine ⟨h.own, fun b => ?_, fun b => ?_, hnodup⟩
      · by_cases hb : b = bucket (key e)
        · subst hb
          simp only [Function.update_self]
          rw [List.countP_cons_of_pos (by simp), h.spilled_eq]
        · simp only [Function.update_of_ne hb]
          rw [List.countP_cons_of_neg (by simpa using fun hh => hb hh.symm), h.spilled_eq]
      · by_cases hb : b = bucket (key e)
        · subst hb
          simp only [entriesOf]
          rw [List.filter_cons_of_pos (by simp), List.filter_cons_of_pos (by simp)]
          exact List.perm_middle.trans ((h.perm _).cons e)
        · simp only [entriesOf]
          rw [List.filter_cons_of_neg (by simpa using fun hh => hb hh.symm),
            List.filter_cons_of_neg (by simpa using fun hh => hb hh.symm)]
          exact h.perm b

/-- Removing a stored key succeeds and removes that entry and nothing else. -/
theorem remove_holds (h : idx.Holds key bucket L) {e : E} {L' : List E}
    (hL : L.Perm (e :: L')) :
    ∃ idx', idx.remove key bucket (key e) = some idx' ∧ idx'.Holds key bucket L' := by
  have he : e ∈ L := hL.symm.subset List.mem_cons_self
  have hnodup : (L'.map key).Nodup := by
    have := (h.of_perm hL).nodup
    rw [List.map_cons, List.nodup_cons] at this
    exact this.2
  have hother : ∀ b, b ≠ bucket (key e) →
      (L.filter (fun x => bucket (key x) = b)).Perm (L'.filter (fun x => bucket (key x) = b)) := by
    intro b hb
    have := hL.filter (fun x => bucket (key x) = b)
    rwa [List.filter_cons_of_neg (by simpa using fun hh => hb hh.symm)] at this
  have hown : (L.filter (fun x => bucket (key x) = bucket (key e))).Perm
      (e :: L'.filter (fun x => bucket (key x) = bucket (key e))) := by
    have := hL.filter (fun x => bucket (key x) = bucket (key e))
    rwa [List.filter_cons_of_pos (by simp)] at this
  -- the slots of its bucket are searched first, then the stack
  cases hs : slotsRemove key (key e) (idx.slots (bucket (key e))) with
  | some slots =>
      obtain ⟨x, hx, hperm⟩ := slotsRemove_perm hs
      have hxe : x = e := h.key_inj (h.mem_of_slot (hperm.symm.subset List.mem_cons_self)) he hx
      subst hxe
      refine ⟨{ idx with slots := Function.update idx.slots (bucket (key x)) slots },
        by simp only [remove, hs], fun b y hy => ?_, h.spilled_eq, fun b => ?_, hnodup⟩
      · by_cases hb : b = bucket (key x)
        · subst hb
          simp only [Function.update_self] at hy
          exact h.own _ y (hperm.symm.subset (List.mem_cons_of_mem _ hy))
        · simp only [Function.update_of_ne hb] at hy
          exact h.own b y hy
      · by_cases hb : b = bucket (key x)
        · subst hb
          simp only [entriesOf, Function.update_self]
          have hold := (h.perm (bucket (key x))).trans hown
          exact (((hperm.append_right _).symm).trans hold).cons_inv
        · simp only [entriesOf, Function.update_of_ne hb]
          exact (h.perm b).trans (hother b hb)
  | none =>
      rcases h.slot_or_over he with hslot | ⟨hover, hpos⟩
      · exact absurd rfl (slotsRemove_none hs e hslot)
      · cases ho : overRemove key (key e) idx.stack with
        | none => exact absurd rfl (overRemove_none ho e hover)
        | some stack =>
            obtain ⟨x, hx, hperm⟩ := overRemove_perm ho
            have hxe : x = e :=
              h.key_inj (h.mem_of_over (hperm.symm.subset List.mem_cons_self)) he hx
            subst hxe
            refine ⟨{ idx with
                spilled := Function.update idx.spilled (bucket (key x))
                  (idx.spilled (bucket (key x)) - 1)
                stack := stack },
              by simp only [remove, hs, if_pos hpos, ho, Option.map_some], h.own,
              fun b => ?_, fun b => ?_, hnodup⟩
            · have hcount := hperm.countP_eq (fun x => bucket (key x) = b)
              by_cases hb : b = bucket (key x)
              · subst hb
                rw [List.countP_cons_of_pos (by simp)] at hcount
                simp only [Function.update_self]
                rw [h.spilled_eq, hcount, Nat.add_sub_cancel]
              · rw [List.countP_cons_of_neg (by simpa using fun hh => hb hh.symm)] at hcount
                simp only [Function.update_of_ne hb]
                rw [h.spilled_eq, hcount]
            · have hfilter := hperm.filter (fun x => bucket (key x) = b)
              by_cases hb : b = bucket (key x)
              · subst hb
                rw [List.filter_cons_of_pos (by simp)] at hfilter
                have hold := (h.perm (bucket (key x))).trans hown
                have hmid := (hfilter.append_left ((idx.slots (bucket (key x))).filterMap id)).symm
                exact ((List.perm_middle.symm.trans hmid).trans hold).cons_inv
              · rw [List.filter_cons_of_neg (by simpa using fun hh => hb hh.symm)] at hfilter
                have hmid := (hfilter.append_left ((idx.slots b).filterMap id)).symm
                exact (hmid.trans (h.perm b)).trans (hother b hb)

theorem remove_eq_none (h : idx.Holds key bucket L) {c : K} (hc : c ∉ L.map key) :
    idx.remove key bucket c = none := by
  have hslots : slotsRemove key c (idx.slots (bucket c)) = none := by
    cases hs : slotsRemove key c (idx.slots (bucket c)) with
    | none => rfl
    | some slots =>
        obtain ⟨x, rfl, hperm⟩ := slotsRemove_perm hs
        exact absurd (List.mem_map_of_mem
          (h.mem_of_slot (hperm.symm.subset List.mem_cons_self))) hc
  have hover : overRemove key c idx.stack = none := by
    cases ho : overRemove key c idx.stack with
    | none => rfl
    | some stack =>
        obtain ⟨x, rfl, hperm⟩ := overRemove_perm ho
        exact absurd (List.mem_map_of_mem
          (h.mem_of_over (hperm.symm.subset List.mem_cons_self))) hc
  simp [remove, hslots, hover]

/-! ## The overflow stack across operations -/

omit [DecidableEq K] in
/-- Adding an entry pushes it on the stack or leaves the stack as it is. -/
theorem add_over (n : Nat) (key : E → K) (bucket : K → Nat) (idx : Index E) (e : E) :
    (idx.add n key bucket e).stack = idx.stack ∨ (idx.add n key bucket e).stack = e :: idx.stack := by
  rw [add]
  split
  · exact Or.inl rfl
  · exact Or.inr rfl

omit [DecidableEq K] in
theorem add_over_length_le (idx : Index E) (e : E) :
    (idx.add n key bucket e).stack.length ≤ idx.stack.length + 1 := by
  rcases add_over n key bucket idx e with h | h
  · rw [h]
    exact Nat.le_succ _
  · rw [h]
    exact Nat.le_refl _

/-- `idx'` has entries of `idx` only, where `idx` has them, and counts no more of them. -/
structure NoFuller (idx' idx : Index E) : Prop where
  stack : idx'.stack.length ≤ idx.stack.length
  spilled : ∀ b, idx'.spilled b ≤ idx.spilled b
  slots : ∀ b, none ∈ idx.slots b → none ∈ idx'.slots b
  stack_subset : idx'.stack ⊆ idx.stack
  slots_subset : ∀ b, (idx'.slots b).filterMap id ⊆ (idx.slots b).filterMap id
  slots_length : ∀ b, (idx'.slots b).length = (idx.slots b).length

omit [DecidableEq K] in
theorem NoFuller.refl (idx : Index E) : NoFuller idx idx :=
  ⟨Nat.le_refl _, fun _ => Nat.le_refl _, fun _ => id, List.Subset.refl _,
    fun _ => List.Subset.refl _, fun _ => rfl⟩

omit [DecidableEq K] in
theorem NoFuller.trans {idx idx' idx'' : Index E} (h : NoFuller idx'' idx')
    (h' : NoFuller idx' idx) : NoFuller idx'' idx where
  stack := Nat.le_trans h.stack h'.stack
  spilled b := Nat.le_trans (h.spilled b) (h'.spilled b)
  slots b hb := h.slots b (h'.slots b hb)
  stack_subset := List.Subset.trans h.stack_subset h'.stack_subset
  slots_subset b := List.Subset.trans (h.slots_subset b) (h'.slots_subset b)
  slots_length b := (h.slots_length b).trans (h'.slots_length b)

omit [DecidableEq K] in
theorem NoFuller.accepts {idx idx' : Index E} (h : NoFuller idx' idx) {b : Nat}
    (hb : idx.Accepts n b) : idx'.Accepts n b := by
  rcases hb with hb | hb
  · exact Or.inl (h.slots b hb)
  · exact Or.inr (Nat.lt_of_le_of_lt (h.spilled b) hb)

theorem remove_noFuller {c : K} {idx' : Index E} (hr : idx.remove key bucket c = some idx') :
    NoFuller idx' idx := by
  rw [remove] at hr
  split at hr
  · next slots hs =>
      rw [Option.some.injEq] at hr
      subst hr
      obtain ⟨x, -, hperm⟩ := slotsRemove_perm hs
      refine ⟨Nat.le_refl _, fun _ => Nat.le_refl _, fun b hb => ?_, List.Subset.refl _, fun b => ?_,
        fun b => ?_⟩
      · simp only [Function.update_apply]
        split
        · next heq =>
            rw [heq] at hb
            exact slotsRemove_empty hs hb
        · exact hb
      · simp only [Function.update_apply]
        split
        · next heq =>
            rw [heq]
            exact fun y hy => hperm.symm.subset (List.mem_cons_of_mem _ hy)
        · exact List.Subset.refl _
      · simp only [Function.update_apply]
        split
        · next heq =>
            rw [heq]
            exact slotsRemove_length hs
        · rfl
  · split at hr
    · rw [Option.map_eq_some_iff] at hr
      obtain ⟨stack, ho, rfl⟩ := hr
      obtain ⟨x, -, hperm⟩ := overRemove_perm ho
      refine ⟨by simp only [overRemove_length ho, Nat.le_succ], fun b => ?_, fun _ => id,
        fun y hy => hperm.symm.subset (List.mem_cons_of_mem _ hy), fun _ => List.Subset.refl _,
        fun _ => rfl⟩
      simp only [Function.update_apply]
      split
      · next hb =>
          rw [hb]
          exact Nat.sub_le _ _
      · exact Nat.le_refl _
    · cases hr

omit [DecidableEq K] in
/-- What is left of an index was in it. -/
theorem Holds.mem_of_noFuller {idx' : Index E} {L' : List E} (hL : idx.Holds key bucket L)
    (hL' : idx'.Holds key bucket L') (h : NoFuller idx' idx) {x : E} (hx : x ∈ L') : x ∈ L := by
  rcases hL'.slot_or_over hx with hslot | ⟨hover, -⟩
  · exact hL.mem_of_slot (h.slots_subset _ hslot)
  · exact hL.mem_of_over (h.stack_subset hover)

/-- What is left of an index is where it was: in its slot or on the stack. -/
theorem NoFuller.restrict {idx idx' : Index E} {L L' : List E} (h : NoFuller idx' idx)
    (hL : idx.Holds key bucket L) (hL' : idx'.Holds key bucket L') :
    idx'.stack.Perm (idx.stack.filter (key · ∈ L'.map key)) ∧
      ∀ b, ((idx'.slots b).filterMap id).Perm
        (((idx.slots b).filterMap id).filter (key · ∈ L'.map key)) := by
  have hsub : ∀ x ∈ L', x ∈ L := fun x hx => hL.mem_of_noFuller hL' h hx
  have hmem : ∀ x ∈ L, key x ∈ L'.map key → x ∈ L' := by
    intro x hx hkey
    obtain ⟨y, hy, heq⟩ := List.mem_map.1 hkey
    rwa [← hL.key_inj (hsub y hy) hx heq]
  refine ⟨?_, fun b => ?_⟩
  · rw [List.perm_ext_iff_of_nodup hL'.over_nodup.of_map (hL.over_nodup.of_map.filter _)]
    intro x
    rw [List.mem_filter, decide_eq_true_eq]
    constructor
    · intro hx
      exact ⟨h.stack_subset hx, List.mem_map_of_mem (hL'.mem_of_over hx)⟩
    · rintro ⟨hover, hkey⟩
      rcases hL'.slot_or_over (hmem x (hL.mem_of_over hover) hkey) with hslot | ⟨hover', -⟩
      · exact absurd rfl (hL.key_ne (h.slots_subset _ hslot) hover)
      · exact hover'
  · rw [List.perm_ext_iff_of_nodup (hL'.slots_nodup b).of_map ((hL.slots_nodup b).of_map.filter _)]
    intro x
    rw [List.mem_filter, decide_eq_true_eq]
    constructor
    · intro hx
      exact ⟨h.slots_subset b hx, List.mem_map_of_mem (hL'.mem_of_slot hx)⟩
    · rintro ⟨hslot, hkey⟩
      rcases hL'.slot_or_over (hmem x (hL.mem_of_slot hslot) hkey) with hslot' | ⟨hover, -⟩
      · rwa [hL.own b x hslot] at hslot'
      · exact absurd rfl (hL.key_ne hslot (h.stack_subset hover))

/-- Removing a key takes its entry, and no other, off the stack. -/
theorem remove_over (h : idx.Holds key bucket L) {c : K} {idx' : Index E}
    (hr : idx.remove key bucket c = some idx') :
    idx'.stack.Perm (idx.stack.filter (key · ≠ c)) := by
  rw [remove] at hr
  split at hr
  · next slots hs =>
      -- the entry stood in a slot, so the stack holds nothing with its key
      rw [Option.some.injEq] at hr
      subst hr
      obtain ⟨x, rfl, hperm⟩ := slotsRemove_perm hs
      have hkeep : idx.stack.filter (key · ≠ key x) = idx.stack := by
        rw [List.filter_eq_self]
        intro y hy
        have hslot : x ∈ (idx.slots (bucket (key x))).filterMap id :=
          hperm.symm.subset List.mem_cons_self
        exact decide_eq_true (h.key_ne hslot hy).symm
      rw [hkeep]
  · split at hr
    · rw [Option.map_eq_some_iff] at hr
      obtain ⟨stack, ho, rfl⟩ := hr
      obtain ⟨x, rfl, hperm⟩ := overRemove_perm ho
      have hdup := (hperm.map key).nodup_iff.1 h.over_nodup
      rw [List.map_cons, List.nodup_cons] at hdup
      have hkeep : stack.filter (key · ≠ key x) = stack := by
        rw [List.filter_eq_self]
        intro y hy
        have hne : key y ≠ key x := fun hh => hdup.1 (hh ▸ List.mem_map_of_mem hy)
        simpa using hne
      have hfilter := hperm.filter (key · ≠ key x)
      rw [List.filter_cons_of_neg (by simp), hkeep] at hfilter
      exact hfilter.symm
    · cases hr

/-! ## Counters that start over -/

omit [DecidableEq K] in
theorem none_mem_iff {slots : List (Option E)} :
    none ∈ slots ↔ (slots.filterMap id).length < slots.length := by
  induction slots with
  | nil => simp
  | cons slot slots ih =>
      cases slot with
      | none =>
          have hle := List.length_filterMap_le id slots
          refine iff_of_true List.mem_cons_self ?_
          rw [List.filterMap_cons_none rfl, List.length_cons]
          omega
      | some e =>
          rw [List.mem_cons, List.filterMap_cons_some (by rfl : id (some e) = some e), List.length_cons,
            List.length_cons, ih]
          simp

omit [DecidableEq K] in
/-- Adding an entry keeps the counters exact only where its bucket accepts it. -/
theorem accepts_of_add (h : idx.Holds key bucket L) {e : E} (hle : idx.spilled (bucket (key e)) ≤ n)
    (hadd : (idx.add n key bucket e).spilled (bucket (key e)) =
      (idx.add n key bucket e).stack.countP (fun x => bucket (key x) = bucket (key e))) :
    idx.Accepts n (bucket (key e)) := by
  rw [add] at hadd
  cases hs : slotsAdd (idx.slots (bucket (key e))) e with
  | some slots =>
      left
      have hlength := (slotsAdd_perm hs).length_eq
      have hle' := List.length_filterMap_le id slots
      rw [List.length_cons] at hlength
      rw [slotsAdd_length hs] at hle'
      exact none_mem_iff.2 (by omega)
  | none =>
      right
      simp only [hs, Function.update_self] at hadd
      rw [List.countP_cons_of_pos (by simp), ← h.spilled_eq] at hadd
      by_contra hge
      rw [show idx.spilled (bucket (key e)) = n by omega, Nat.mod_self] at hadd
      cases hadd

/-! ## Indexes that may have lost count

What follows holds of every index, whether its counters are exact or not. -/

/-- A key that is not found cannot be removed. -/
theorem remove_of_find_none {c : K} (h : idx.find key bucket c = none) :
    idx.remove key bucket c = none := by
  rw [find] at h
  split at h
  · cases h
  · next hslots =>
      rw [remove, (slotsFind_eq_none_iff key c _).1 hslots]
      simp only
      split at h
      · next hpos =>
          rw [if_pos hpos]
          cases hover : overRemove key c idx.stack with
          | none => rfl
          | some stack =>
              obtain ⟨x, rfl, hperm⟩ := overRemove_perm hover
              exact absurd (by simp) (List.find?_eq_none.1 h x (hperm.symm.subset List.mem_cons_self))
      · next hzero => rw [if_neg hzero]

/-- Nor is it found once others were removed. -/
theorem find_none_remove {c c' : K} {idx' : Index E} (h : idx.find key bucket c = none)
    (hr : idx.remove key bucket c' = some idx') : idx'.find key bucket c = none := by
  rw [find] at h
  split at h
  · cases h
  next hslots =>
  rw [remove] at hr
  split at hr
  · next slots hs =>
      rw [Option.some.injEq] at hr
      subst hr
      have hslots' : slotsFind key c (Function.update idx.slots (bucket c') slots (bucket c)) =
          none := by
        by_cases hb : bucket c = bucket c'
        · obtain ⟨x, -, hperm⟩ := slotsRemove_perm hs
          rw [hb, Function.update_self]
          rw [hb] at hslots
          cases hfind : slotsFind key c slots with
          | none => rfl
          | some y =>
              obtain ⟨hy, hkey⟩ := slotsFind_some hfind
              exact absurd hkey (slotsFind_none hslots y
                (hperm.symm.subset (List.mem_cons_of_mem _ hy)))
        · rw [Function.update_of_ne hb, hslots]
      simp only [find, hslots']
      exact h
  · split at hr
    · next hpos' =>
        rw [Option.map_eq_some_iff] at hr
        obtain ⟨stack, hover, rfl⟩ := hr
        obtain ⟨x, -, hperm⟩ := overRemove_perm hover
        simp only [find, hslots]
        by_cases hpos : 0 < idx.spilled (bucket c)
        · rw [if_pos hpos] at h
          have hnone : stack.find? (key · = c) = none := by
            rw [List.find?_eq_none] at h ⊢
            exact fun y hy => h y (hperm.symm.subset (List.mem_cons_of_mem _ hy))
          rw [hnone, ite_self]
        · refine if_neg fun hlt => hpos (Nat.lt_of_lt_of_le hlt ?_)
          simp only [Function.update_apply]
          split
          · next hb =>
              rw [hb]
              exact Nat.sub_le _ _
          · exact Nat.le_refl _
    · cases hr

/-- The entries in the slots of the first `n` buckets. -/
def filled (slots : Nat → List (Option E)) : Nat → Nat
  | 0 => 0
  | n + 1 => filled slots n + ((slots n).filterMap id).length

/-- The entries of an index with `n` buckets. -/
def entryCount (n : Nat) (idx : Index E) : Nat := filled idx.slots n + idx.stack.length

omit [DecidableEq K] in
theorem filled_update_of_le (slots : Nat → List (Option E)) {n b : Nat} (hb : n ≤ b)
    (slots' : List (Option E)) : filled (Function.update slots b slots') n = filled slots n := by
  induction n with
  | zero => rfl
  | succ n ih => rw [filled, filled, ih (by omega), Function.update_of_ne (by omega)]

omit [DecidableEq K] in
theorem filled_update (slots : Nat → List (Option E)) {n b : Nat} (hb : b < n)
    (slots' : List (Option E)) :
    filled (Function.update slots b slots') n + ((slots b).filterMap id).length =
      filled slots n + (slots'.filterMap id).length := by
  induction n with
  | zero => exact absurd hb (Nat.not_lt_zero b)
  | succ n ih =>
      rw [filled, filled]
      by_cases hbn : b = n
      · subst hbn
        rw [filled_update_of_le slots (Nat.le_refl _), Function.update_self]
        omega
      · have := ih (by omega)
        rw [Function.update_of_ne (fun h => hbn h.symm)]
        omega

omit [DecidableEq K] in
theorem add_entryCount (idx : Index E) (e : E) {m : Nat} (hm : bucket (key e) < m) :
    (idx.add n key bucket e).entryCount m = idx.entryCount m + 1 := by
  rw [add, entryCount, entryCount]
  cases hs : slotsAdd (idx.slots (bucket (key e))) e with
  | some slots =>
      have hlength := (slotsAdd_perm hs).length_eq
      have hfilled := filled_update idx.slots hm slots
      rw [List.length_cons] at hlength
      simp only
      omega
  | none =>
      simp only [List.length_cons]
      omega

theorem remove_entryCount {c : K} {idx' : Index E} (hr : idx.remove key bucket c = some idx') {m : Nat}
    (hm : bucket c < m) : idx'.entryCount m + 1 = idx.entryCount m := by
  rw [entryCount, entryCount]
  rw [remove] at hr
  split at hr
  · next slots hs =>
      rw [Option.some.injEq] at hr
      subst hr
      obtain ⟨x, -, hperm⟩ := slotsRemove_perm hs
      have hlength := hperm.length_eq
      have hfilled := filled_update idx.slots hm slots
      rw [List.length_cons] at hlength
      simp only
      omega
  · split at hr
    · rw [Option.map_eq_some_iff] at hr
      obtain ⟨stack, ho, rfl⟩ := hr
      obtain ⟨x, -, hperm⟩ := overRemove_perm ho
      have hlength := hperm.length_eq
      rw [List.length_cons] at hlength
      simp only
      omega
    · cases hr

/-! ## Removing several entries -/

/-- The number of entries with the key `c` in the slots of their bucket. -/
def inSlots (key : E → K) (bucket : K → Nat) (idx : Index E) (c : K) : Nat :=
  ((idx.slots (bucket c)).filterMap id).countP (key · = c)

/-- How many of the keys `cs`, removed one after the other, are found on the stack, where `n c` of the
entries with the key `c` are in slots: these are found first. -/
def foundOnStack (n : K → Nat) : List K → Nat
  | [] => 0
  | c :: cs =>
      if n c = 0 then foundOnStack n cs + 1
      else foundOnStack (Function.update n c (n c - 1)) cs

/-- A removal takes an entry off the stack if none with the key is in a slot. -/
theorem remove_inSlots {c : K} {idx' : Index E} (hr : idx.remove key bucket c = some idx') :
    (idx.inSlots key bucket c = 0 ∧ idx'.inSlots key bucket = idx.inSlots key bucket ∧
      idx'.stack.length + 1 = idx.stack.length) ∨
    (idx.inSlots key bucket c ≠ 0 ∧ idx'.inSlots key bucket =
        Function.update (idx.inSlots key bucket) c (idx.inSlots key bucket c - 1) ∧
      idx'.stack = idx.stack) := by
  rw [remove] at hr
  split at hr
  · next slots hs =>
      rw [Option.some.injEq] at hr
      subst hr
      obtain ⟨x, rfl, hperm⟩ := slotsRemove_perm hs
      have hcount : ∀ c, ((idx.slots (bucket (key x))).filterMap id).countP (key · = c) =
          (slots.filterMap id).countP (key · = c) + if key x = c then 1 else 0 := fun c => by
        rw [hperm.countP_eq, List.countP_cons]
        simp only [decide_eq_true_eq]
      have hone := hcount (key x)
      rw [if_pos rfl] at hone
      refine Or.inr ⟨?_, ?_, rfl⟩
      · rw [inSlots, hone]
        exact Nat.succ_ne_zero _
      · funext c
        by_cases hc : c = key x
        · subst hc
          rw [Function.update_self]
          simp only [inSlots, Function.update_self]
          rw [hone, Nat.add_sub_cancel]
        · rw [Function.update_of_ne hc]
          by_cases hb : bucket c = bucket (key x)
          · have hother := hcount c
            rw [if_neg fun hh => hc hh.symm, Nat.add_zero] at hother
            simp only [inSlots, hb, Function.update_self]
            exact hother.symm
          · simp only [inSlots, Function.update_of_ne hb]
  · next hs =>
      split at hr
      · rw [Option.map_eq_some_iff] at hr
        obtain ⟨stack, ho, rfl⟩ := hr
        refine Or.inl ⟨?_, rfl, (overRemove_length ho).symm⟩
        rw [inSlots, List.countP_eq_zero]
        intro x hx
        simpa using slotsRemove_none hs x hx
      · cases hr

/-- The index with no entries, `n` empty slots in each bucket. -/
def empty (n : Nat) : Index E := ⟨fun _ => List.replicate n none, fun _ => 0, []⟩

omit [DecidableEq K] in
theorem empty_holds (n : Nat) : (empty n : Index E).Holds key bucket [] where
  own b e he := by simp [empty] at he
  spilled_eq b := by simp [empty]
  perm b := by simp [empty, entriesOf]
  nodup := by simp

omit [DecidableEq K] in
theorem empty_entryCount (n m : Nat) : (empty n : Index E).entryCount m = 0 := by
  have hfilled : ∀ m, filled (empty n : Index E).slots m = 0 := by
    intro m
    induction m with
    | zero => rfl
    | succ m ih => rw [filled, ih, empty, List.filterMap_replicate_of_none rfl, List.length_nil]
  rw [entryCount, hfilled, empty, List.length_nil]

end Index

end BucketIndex
