import Theo.Cell.Calls

set_option autoImplicit false

/-! # What the look-ups of a cell return

A look-up that finds a chunk returns what the last successful insertion under its checksum put in:
the ring holds nothing else (`Ring.calls_lastAdded`). And a cell that was made of a slab with no sane
header answers as one made of zeroes: both begin with the empty ring. -/

namespace Theo

open ByteMachine BucketIndex

/-- The buffer of the last `cell_add_chunk` for `c` that returned true, after `acc`. -/
def lastAdded (c : Checksum) (acc : Option (List UInt8)) :
    List (Call × Answer) → Option (List UInt8)
  | [] => acc
  | (.addChunk c' buffer, .added true) :: rest =>
      lastAdded c (if c' = c then some buffer else acc) rest
  | _ :: rest => lastAdded c acc rest

theorem lastAdded_append (c : Checksum) (acc : Option (List UInt8))
    (xs ys : List (Call × Answer)) :
    lastAdded c acc (xs ++ ys) = lastAdded c (lastAdded c acc xs) ys := by
  fun_induction lastAdded c acc xs with
  | case1 acc => rfl
  | case2 acc c' buffer rest ih => rw [List.cons_append, lastAdded, ih]
  | case3 acc x rest hx ih => rw [List.cons_append, lastAdded, ih]; exact hx

namespace Ring

variable {r r' : Ring} {c : Checksum} {call : Call} {answer : Answer}

/-- What the ring holds was added. -/
def Added (r : Ring) (last : Checksum → Option (List UInt8)) : Prop :=
  ∀ c data, r.lookup c = some data → last c = some data

/-- Each call keeps that what the ring holds is what was added last. -/
theorem call_added {last : Checksum → Option (List UInt8)} (h : r.Inv chunkerLimits)
    (hadded : r.Added last) (hsized : call.Sized 2049 24576)
    (hcall : r.call call = some (answer, r')) :
    r'.Inv chunkerLimits ∧ r'.Added fun c => lastAdded c (last c) [(call, answer)] := by
  cases call with
  | addChunk c buffer =>
      rw [Ring.call, Ring.insert] at hcall
      cases hlookup : r.lookup c with
      | some data =>
          rw [hlookup, Option.map_some, Option.some.injEq, Prod.mk.injEq] at hcall
          obtain ⟨rfl, rfl⟩ := hcall
          exact ⟨h, hadded⟩
      | none =>
          rw [hlookup, Option.map_map, Option.map_eq_some_iff] at hcall
          obtain ⟨r₁, hadd, heq⟩ := hcall
          simp only [Function.comp_apply, Prod.mk.injEq] at heq
          obtain ⟨rfl, rfl⟩ := heq
          have he := chunkOf_isChunk (l := chunkerLimits) c hsized.1 hsized.2
          have hfresh := lookup_eq_none.1 hlookup
          -- the chunk is the last added under `c`, and the others are older ones
          have hinv := h.add_chunk he hfresh hadd
          refine ⟨hinv, fun c' data hdata => ?_⟩
          rcases h.lookup_add hinv hfresh hadd hdata with ⟨rfl, rfl⟩ | ⟨hne, hold⟩
          · simp only [lastAdded, if_true]
          · have hne' : c ≠ c' := fun heq => hne heq.symm
            simp only [lastAdded, if_neg hne']
            exact hadded c' data hold
  | hasChunk c =>
      rw [Ring.call, Option.some.injEq, Prod.mk.injEq] at hcall
      obtain ⟨rfl, rfl⟩ := hcall
      exact ⟨h, hadded⟩
  | getChunk c chunk =>
      simp only [Ring.call, Option.some.injEq, Prod.mk.injEq] at hcall
      obtain ⟨rfl, rfl⟩ := hcall
      exact ⟨h, hadded⟩
  | entryCount =>
      rw [Ring.call, Option.some.injEq, Prod.mk.injEq] at hcall
      obtain ⟨rfl, rfl⟩ := hcall
      exact ⟨h, hadded⟩
  | byteCount =>
      rw [Ring.call, Option.some.injEq, Prod.mk.injEq] at hcall
      obtain ⟨rfl, rfl⟩ := hcall
      exact ⟨h, hadded⟩

/-- Whatever a look-up in a run finds was added last before it. -/
theorem calls_lastAdded {calls : List Call} {answers : List Answer}
    (last : Checksum → Option (List UInt8)) (h : r.Inv chunkerLimits) (hadded : r.Added last)
    (hsized : ∀ call ∈ calls, call.Sized 2049 24576)
    (hcalls : r.calls calls = some (answers, r')) {pre post : List (Call × Answer)}
    {chunk chunk' : Chunk}
    (hsplit : calls.zip answers = pre ++ (.getChunk c chunk, .got true chunk') :: post) :
    ∃ buffer, lastAdded c (last c) pre = some buffer ∧ chunk'.checksum = c ∧
      chunk'.bufferSize = buffer.length ∧ chunk'.buffer.take buffer.length = buffer := by
  induction calls generalizing r answers last pre with
  | nil => simp at hsplit
  | cons call rest ih =>
      rw [Ring.calls] at hcalls
      obtain ⟨⟨answer, r₁⟩, hcall, hmap⟩ := Option.bind_eq_some_iff.1 hcalls
      obtain ⟨⟨answers', r₂⟩, hrest, heq⟩ := Option.map_eq_some_iff.1 hmap
      rw [Prod.mk.injEq] at heq
      obtain ⟨rfl, rfl⟩ := heq
      obtain ⟨hinv₁, hadded₁⟩ := call_added h hadded (hsized call List.mem_cons_self) hcall
      rw [List.zip_cons_cons] at hsplit
      cases pre with
      | nil =>
          rw [List.nil_append, List.cons.injEq, Prod.mk.injEq] at hsplit
          obtain ⟨⟨rfl, rfl⟩, -⟩ := hsplit
          simp only [Ring.call, Option.some.injEq, Prod.mk.injEq, Answer.got.injEq] at hcall
          cases hlookup : r.lookup c with
          | none =>
              rw [hlookup] at hcall
              exact absurd hcall.1.1 Bool.false_ne_true
          | some data =>
              rw [hlookup] at hcall
              obtain ⟨⟨-, rfl⟩, -⟩ := hcall
              exact ⟨data, hadded c data hlookup, rfl, rfl, List.take_left⟩
      | cons x pre =>
          rw [List.cons_append, List.cons.injEq] at hsplit
          obtain ⟨rfl, hsplit⟩ := hsplit
          obtain ⟨buffer, hlast, hchunk⟩ := ih _ hinv₁ hadded₁
            (fun call' hcall' => hsized call' (List.mem_cons_of_mem _ hcall')) hrest hsplit
          refine ⟨buffer, ?_, hchunk⟩
          rw [← List.singleton_append, lastAdded_append]
          exact hlast

end Ring

section

variable {slab slab₀ : Nat} {s s₀ : Store} {calls : List Call}

/-- Read integrity: in every sequence of calls on a new cell that does not abort, a look-up that
finds a chunk returns the bytes of the last successful insertion under its checksum. -/
theorem cellGetChunk_sound (hz : s₀.mem.Zero slab (slab + cacheCellSize))
    (hinit : cellInit slab cacheCellSize s₀ = .ok (cellAt slab) s)
    (hsized : ∀ call ∈ calls, call.Sized 2049 24576)
    (hno : ∀ s', (cellAt slab).calls calls s ≠ .error .always s') :
    ∃ answers s', (cellAt slab).calls calls s = .ok answers s' ∧
      ∀ pre c chunk chunk' post,
        calls.zip answers = pre ++ (.getChunk c chunk, .got true chunk') :: post →
        ∃ buffer, lastAdded c none pre = some buffer ∧ chunk'.checksum = c ∧
          chunk'.bufferSize = buffer.length ∧ chunk'.buffer.take buffer.length = buffer := by
  obtain ⟨s₁, hrun, -, -, -, hholds⟩ := cellInit_insane slab chunkerLimits (cellHeaderSane_zero hz)
  rw [hrun, EStateM.Result.ok.injEq] at hinit
  rw [hinit.2] at hholds
  rcases Cell.calls_refine hholds hsized with ⟨s₂, -, habort, -⟩ |
      ⟨answers, r', s', hcalls, hok, -, -⟩
  · exact absurd habort (hno s₂)
  · refine ⟨answers, s', hok, fun pre c chunk chunk' post hsplit => ?_⟩
    exact Ring.calls_lastAdded (fun _ => none) (Ring.empty_inv _)
      (fun c data hdata => by cases hdata) hsized hcalls hsplit

/-- A chunk that is added to a new cell, other bytes that are refused under its checksum, and the
look-up that returns the first. -/
theorem cellGetChunk_sound_once : ∃ s s' chunk',
    cellInit 0 cacheCellSize zeroed = .ok (cellAt 0) s ∧
    (cellAt 0).calls [.addChunk (.fill 1) (someBytes 2049), .addChunk (.fill 1) (someBytes 3000),
      .getChunk (.fill 1) ⟨.fill 0, [], 0⟩] s =
        .ok [.added true, .added false, .got true chunk'] s' ∧
    chunk'.checksum = .fill 1 ∧ chunk'.bufferSize = 2049 ∧
    chunk'.buffer.take 2049 = someBytes 2049 := by
  obtain ⟨s₁, hinit, -, -, -, hholds⟩ := cellInit_insane 0 chunkerLimits
    (cellHeaderSane_zero (zeroed_zero _ _))
  have hbytes := someBytes_sized
  have hlength := someBytes_length 2049
  have hother : 2049 ≤ (someBytes 3000).length ∧ (someBytes 3000).length ≤ 24576 := by
    rw [someBytes_length]
    decide
  generalize someBytes 2049 = bytes at hbytes hlength ⊢
  generalize someBytes 3000 = other at hother ⊢
  have hsized : ∀ call ∈ [Call.addChunk (.fill 1) bytes, .addChunk (.fill 1) other,
      .getChunk (.fill 1) ⟨.fill 0, [], 0⟩], call.Sized 2049 24576 := by
    simp only [List.forall_mem_cons, Call.Sized]
    exact ⟨hbytes, hother, trivial, fun _ hcall => absurd hcall List.not_mem_nil⟩
  have hlookup : (Ring.empty.push (chunkOf (.fill 1) bytes)).lookup (.fill 1) = some bytes := rfl
  have hcalls : Ring.empty.calls [.addChunk (.fill 1) bytes, .addChunk (.fill 1) other,
      .getChunk (.fill 1) ⟨.fill 0, [], 0⟩] =
        some ([.added true, .added false, .got true ⟨.fill 1, bytes ++ [], bytes.length⟩],
          Ring.empty.push (chunkOf (.fill 1) bytes)) := by
    rw [Ring.calls, Ring.call, Ring.empty_insert _ hbytes.2]
    simp only [Ring.calls, Ring.call, Ring.insert, hlookup, fetched, Option.map_some,
      Option.bind_some, List.drop_nil]
  rcases Cell.calls_refine hholds hsized with ⟨s₂, hnone, -, -⟩ | ⟨answers, r', s₂, hsome, hok, -, -⟩
  · rw [hcalls] at hnone
    cases hnone
  rw [hcalls, Option.some.injEq, Prod.mk.injEq] at hsome
  obtain ⟨rfl, rfl⟩ := hsome
  obtain ⟨answers', s₃, hrun, hsound⟩ := cellGetChunk_sound (zeroed_zero _ _) hinit hsized
    (fun s' hs' => by
      rw [hok] at hs'
      cases hs')
  rw [hok, EStateM.Result.ok.injEq] at hrun
  obtain ⟨rfl, rfl⟩ := hrun
  obtain ⟨buffer, hlast, hchecksum, hsize, htake⟩ :=
    hsound [(.addChunk (.fill 1) bytes, .added true), (.addChunk (.fill 1) other, .added false)]
      (.fill 1) ⟨.fill 0, [], 0⟩ _ [] rfl
  have hfirst : some bytes = some buffer := hlast
  obtain rfl := Option.some.inj hfirst
  rw [hlength] at htake
  exact ⟨_, s₂, _, hinit, hok, hchecksum, hsize.trans hlength, htake⟩

/-- What the caller sees of a run: its result, or why it did not return. -/
def outcome {α : Type} : EStateM.Result Abort Store α → Except Abort α
  | .ok a _ => .ok a
  | .error e _ => .error e

/-- `cell_init` on a slab, then calls on the cell. -/
def initAndCall (slab : Nat) (calls : List Call) : Act (List Answer) := do
  let cell ← cellInit slab cacheCellSize
  cell.calls calls

/-- A cell whose header is not sane starts with the empty ring. -/
theorem initAndCall_insane (h : cellHeaderSane s.mem (slab + 1019872) = false)
    (hsized : ∀ call ∈ calls, call.Sized 2049 24576) :
    outcome (initAndCall slab calls s) =
      match Ring.empty.calls calls with
      | some (answers, _) => .ok answers
      | none => .error .always := by
  obtain ⟨s₁, hrun, -, -, -, hholds⟩ := cellInit_insane slab chunkerLimits h
  rw [initAndCall, bind_ok hrun]
  rcases Cell.calls_refine hholds hsized with ⟨s₂, hnone, habort, -⟩ |
      ⟨answers, r', s', hsome, hok, -, -⟩
  · rw [hnone, habort]
    rfl
  · rw [hsome, hok]
    rfl

/-- Recovery forgets everything: calls on a cell that had to be reset are answered as on one made of
a zeroed slab. -/
theorem initAndCall_eq_zeroed (h : cellHeaderSane s.mem (cellAt slab).cellHeader = false)
    (hz : s₀.mem.Zero slab₀ (slab₀ + cacheCellSize))
    (hsized : ∀ call ∈ calls, call.Sized 2049 24576) :
    outcome (initAndCall slab calls s) = outcome (initAndCall slab₀ calls s₀) := by
  rw [initAndCall_insane h hsized, initAndCall_insane (cellHeaderSane_zero hz) hsized]

/-- A slab of ones has no sane header. -/
theorem initAndCall_eq_zeroed_ones :
    outcome (initAndCall 0 [.addChunk (.fill 1) (someBytes 2049), .entryCount]
      ⟨fun _ => 1, []⟩) =
    outcome (initAndCall 0 [.addChunk (.fill 1) (someBytes 2049), .entryCount] zeroed) :=
  initAndCall_eq_zeroed (by decide) (zeroed_zero _ _) (by simp [Call.Sized])

end

end Theo
