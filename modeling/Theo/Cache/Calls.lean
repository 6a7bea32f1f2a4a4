import Theo.Cache.Basic
import Theo.Cell.Integrity

set_option autoImplicit false

/-! # Sequences of calls on a cache

A call on a cache is a call on one of its cells, which stores in the slab of that cell only. So each
cell sees its own calls, as if there were no others (`cells_independent`). -/

namespace Theo

open ByteMachine BucketIndex

/-- A call on a cache. -/
inductive CacheCall where
  | addChunk (checksum : Checksum) (buffer : List UInt8)
  | hasChunk (checksum : Checksum)
  | getChunk (checksum : Checksum) (chunk : Chunk)

def CacheCall.checksum : CacheCall → Checksum
  | .addChunk checksum _ => checksum
  | .hasChunk checksum => checksum
  | .getChunk checksum _ => checksum

/-- The same call on a cell. -/
def CacheCall.onCell : CacheCall → Call
  | .addChunk checksum buffer => .addChunk checksum buffer
  | .hasChunk checksum => .hasChunk checksum
  | .getChunk checksum chunk => .getChunk checksum chunk

def CacheCall.Sized (lo hi : Nat) (call : CacheCall) : Prop := call.onCell.Sized lo hi

/-- The cell of a call, among `n`. -/
def CacheCall.index (n : Nat) (call : CacheCall) : Nat := call.checksum.part % n

def Cache.call (cache : Cache) : CacheCall → Act Answer
  | .addChunk checksum buffer => do pure (.added (← cacheAddChunk cache checksum buffer))
  | .hasChunk checksum => do pure (.has (← cacheHasChunk cache checksum))
  | .getChunk checksum chunk => do
      let got ← cacheGetChunk cache checksum chunk
      pure (.got got.1 got.2)

/-- Calls one after the other, and their answers. -/
def Cache.calls (cache : Cache) : List CacheCall → Act (List Answer)
  | [] => pure []
  | call :: rest => do
      let answer ← cache.call call
      let answers ← cache.calls rest
      pure (answer :: answers)

/-- The calls that go to cell `i`. -/
def callsOf (n i : Nat) (calls : List CacheCall) : List Call :=
  (calls.filter fun call => call.index n = i).map CacheCall.onCell

/-- The answers of the calls that go to cell `i`. -/
def answersOf (n i : Nat) (calls : List CacheCall) (answers : List Answer) : List Answer :=
  ((calls.zip answers).filter fun pair => pair.1.index n = i).map Prod.snd

section Calls

variable {n i : Nat} {call : CacheCall} {rest : List CacheCall} {answer : Answer}
  {answers : List Answer}

theorem callsOf_own (h : call.index n = i) :
    callsOf n i (call :: rest) = call.onCell :: callsOf n i rest := by
  simp [callsOf, h]

theorem callsOf_other (h : call.index n ≠ i) : callsOf n i (call :: rest) = callsOf n i rest := by
  simp [callsOf, h]

theorem answersOf_own (h : call.index n = i) :
    answersOf n i (call :: rest) (answer :: answers) = answer :: answersOf n i rest answers := by
  simp [answersOf, h]

theorem answersOf_other (h : call.index n ≠ i) :
    answersOf n i (call :: rest) (answer :: answers) = answersOf n i rest answers := by
  simp [answersOf, h]

end Calls

section

variable {base n i : Nat} {s s' t : Store} {rings : Nat → Ring}

/-! ## Calls on the rings -/

/-- What an insertion stores is its own chunk. -/
theorem Ring.Inv.insert_lookup {r r' : Ring} {c c' : Checksum} {buffer data : List UInt8}
    {added : Bool} (h : r.Inv chunkerLimits) (hlo : 2049 ≤ buffer.length)
    (hhi : buffer.length ≤ 24576) (hinsert : r.insert c buffer = some (added, r'))
    (hdata : r'.lookup c' = some data) : c' = c ∧ data = buffer ∨ r.lookup c' = some data := by
  rw [Ring.insert] at hinsert
  cases hstored : r.lookup c with
  | some stored =>
      rw [hstored, Option.some.injEq, Prod.mk.injEq] at hinsert
      rw [hinsert.2]
      exact Or.inr hdata
  | none =>
      rw [hstored] at hinsert
      obtain ⟨r₁, hadd, hr₁⟩ := Option.map_eq_some_iff.1 hinsert
      obtain ⟨-, rfl⟩ := Prod.mk.inj hr₁
      have hfresh : r.Fresh (chunkOf c buffer).checksum := Ring.lookup_eq_none.1 hstored
      have he := chunkOf_isChunk (l := chunkerLimits) c hlo hhi
      rcases h.lookup_add (h.add_chunk he hfresh hadd) hfresh hadd hdata with
        ⟨hc, hbuffer⟩ | ⟨-, hold⟩
      · exact Or.inl ⟨hc, hbuffer⟩
      · exact Or.inr hold

/-- What a call finds room for is its own chunk. -/
theorem Ring.Inv.call_lookup {r r' : Ring} {call : CacheCall} {answer : Answer} {c : Checksum}
    (h : r.Inv chunkerLimits) (hsized : call.Sized 2049 24576)
    (hcall : r.call call.onCell = some (answer, r')) (hlookup : r'.lookup c ≠ none) :
    c = call.checksum ∨ r.lookup c ≠ none := by
  obtain ⟨data, hdata⟩ := Option.ne_none_iff_exists'.1 hlookup
  cases call with
  | addChunk c' buffer =>
      obtain ⟨out, hinsert, hout⟩ := Option.map_eq_some_iff.1 hcall
      obtain ⟨-, rfl⟩ := Prod.mk.inj hout
      rcases h.insert_lookup hsized.1 hsized.2 hinsert hdata with ⟨hc, -⟩ | hold
      · exact Or.inl hc
      · exact Or.inr (by rw [hold]; exact Option.some_ne_none _)
  | hasChunk c' =>
      rw [CacheCall.onCell, Ring.call, Option.some.injEq, Prod.mk.injEq] at hcall
      rw [← hcall.2] at hlookup
      exact Or.inr hlookup
  | getChunk c' chunk =>
      rw [CacheCall.onCell, Ring.call, Option.some.injEq, Prod.mk.injEq] at hcall
      rw [← hcall.2] at hlookup
      exact Or.inr hlookup

/-! ## Calls on the cells -/

/-- A call on a cache is the call on its cell. -/
theorem Cache.call_eq (h : CacheHolds s.mem base n rings) (hn : 1 ≤ n) (call : CacheCall) :
    (cacheAt base n).call call s =
      (cellAt (slabOf base (call.index n))).call call.onCell s := by
  cases call with
  | addChunk c buffer =>
      rw [Cache.call, cacheAddChunk, bind_assoc, bind_ok (cacheGetCellIndex_run h hn c)]
      rfl
  | hasChunk c =>
      rw [Cache.call, cacheHasChunk, bind_assoc, bind_ok (cacheGetCellIndex_run h hn c)]
      rfl
  | getChunk c chunk =>
      rw [Cache.call, cacheGetChunk, bind_assoc, bind_ok (cacheGetCellIndex_run h hn c)]
      rfl

/-- Where one cell changes inside its slab, the others hold what they held. -/
theorem CacheHolds.update (h : CacheHolds s.mem base n rings) {r' : Ring}
    (hcell : CellHolds chunkerLimits s'.mem (slabOf base i) r')
    (hplaced : ∀ c, r'.lookup c ≠ none → c.part % n = i)
    (hemits : Emits (Inside (slabOf base i)) s s') :
    CacheHolds s'.mem base n (Function.update rings i r') := by
  have hheader : s.mem.Agree s'.mem base (base + 16) := by
    have := base_add_le base i
    exact hemits.agree fun e he => he _ _ (Or.inl (by omega))
  refine ⟨?_, ?_, ?_, ?_⟩
  · rw [cacheMagic, (hheader.mono (Nat.le_refl _) (by omega)).load64]
    exact h.magic
  · rw [cacheCellCount, (hheader.mono (by omega) (by omega)).load64]
    exact h.count
  · intro j hj
    by_cases hij : j = i
    · subst hij
      rwa [Function.update_self]
    · rw [Function.update_of_ne hij]
      exact (h.cell j hj).congr (inside_sameSlab hemits (Ne.symm hij))
  · intro j hj c hlookup
    by_cases hij : j = i
    · subst hij
      rw [Function.update_self] at hlookup
      exact hplaced c hlookup
    · rw [Function.update_of_ne hij] at hlookup
      exact h.placed j hj c hlookup

/-- A call on a cache is the call on the ring of its cell. -/
theorem Cache.call_refines (h : CacheHolds s.mem base n rings) (hn : 1 ≤ n) {call : CacheCall}
    (hsized : call.Sized 2049 24576) :
    (∃ s₁, (rings (call.index n)).call call.onCell = none ∧
      (cacheAt base n).call call s = .error .always s₁) ∨
    ∃ answer r' s', (rings (call.index n)).call call.onCell = some (answer, r') ∧
      (cacheAt base n).call call s = .ok answer s' ∧
      CacheHolds s'.mem base n (Function.update rings (call.index n) r') ∧
      Emits (Inside (slabOf base (call.index n))) s s' := by
  have hlt : call.index n < n := Nat.mod_lt _ hn
  rw [Cache.call_eq h hn]
  rcases Cell.call_refines (h.cell _ hlt) hsized with ⟨s₁, hnone, hrun, -⟩ |
      ⟨answer, r', s', hsome, hrun, hholds, hemits⟩
  · exact Or.inl ⟨s₁, hnone, hrun⟩
  · refine Or.inr ⟨answer, r', s', hsome, hrun, h.update hholds (fun c hlookup => ?_) hemits, hemits⟩
    rcases (h.cell _ hlt).inv.call_lookup hsized hsome hlookup with rfl | hold
    · rfl
    · exact h.placed _ hlt c hold

/-- A call that returned, in the terms of its cell: what it does to the slab of the cell it does to
that slab in every memory. -/
theorem Cache.call_returned (h : CacheHolds s.mem base n rings) (hn : 1 ≤ n) {call : CacheCall}
    {answer : Answer} (hsized : call.Sized 2049 24576)
    (hrun : (cacheAt base n).call call s = .ok answer s') :
    ∃ es, s' = s.after es ∧ (∃ rings', CacheHolds s'.mem base n rings') ∧
      (∀ e ∈ es, Inside (slabOf base (call.index n)) e) ∧
      ∀ t, SameSlab base (call.index n) s t →
        (cellAt (slabOf base (call.index n))).call call.onCell t = .ok answer (t.after es) := by
  have hlt : call.index n < n := Nat.mod_lt _ hn
  rcases Cache.call_refines h hn hsized with
    ⟨s₁, -, hrun'⟩ | ⟨answer', r', s₁, -, hrun', hholds, hemits⟩
  · rw [hrun'] at hrun
    cases hrun
  rw [hrun', EStateM.Result.ok.injEq] at hrun
  obtain ⟨rfl, rfl⟩ := hrun
  obtain ⟨es, rfl, hes⟩ := hemits.eq_after
  rw [Cache.call_eq h hn] at hrun'
  refine ⟨es, rfl, ⟨_, hholds⟩, hes, fun t hsame => ?_⟩
  obtain ⟨es', hes', hrunt⟩ := Cell.call_same slabOf_pos (h.cell _ hlt) hsame hsized hrun'
  rw [Machine.after_inj hes']
  exact hrunt

/-! ## Each call by itself -/

theorem cacheHasChunk_run (h : CacheHolds s.mem base n rings) (hn : 1 ≤ n) (c : Checksum) :
    cacheHasChunk (cacheAt base n) c s = .ok ((rings (c.part % n)).lookup c).isSome s := by
  rw [cacheHasChunk, bind_ok (cacheGetCellIndex_run h hn c)]
  exact cellHasChunk_run (h.cell _ (Nat.mod_lt _ hn)) c

theorem cacheGetChunk_run (h : CacheHolds s.mem base n rings) (hn : 1 ≤ n) (c : Checksum)
    (chunk : Chunk) : cacheGetChunk (cacheAt base n) c chunk s =
      .ok (fetched c chunk ((rings (c.part % n)).lookup c)) s := by
  rw [cacheGetChunk, bind_ok (cacheGetCellIndex_run h hn c)]
  exact cellGetChunk_run (h.cell _ (Nat.mod_lt _ hn)) c chunk

/-- Where the ring can take the chunk, the call returns. -/
theorem cacheAddChunk_run (h : CacheHolds s.mem base n rings) (hn : 1 ≤ n) {c : Checksum}
    {buffer : List UInt8} (hlo : 2049 ≤ buffer.length) (hhi : buffer.length ≤ 24576) {added : Bool}
    {r' : Ring} (hinsert : (rings (c.part % n)).insert c buffer = some (added, r')) :
    ∃ s', cacheAddChunk (cacheAt base n) c buffer s = .ok added s' ∧
      CacheHolds s'.mem base n (Function.update rings (c.part % n) r') := by
  rcases Cache.call_refines h hn (show (CacheCall.addChunk c buffer).Sized 2049 24576 from ⟨hlo, hhi⟩)
    with ⟨s₁, hnone, -⟩ | ⟨answer, r₁, s', hsome, hrun, hholds, -⟩
  · have hring : ((rings (c.part % n)).insert c buffer).map _ = none := hnone
    rw [hinsert] at hring
    cases hring
  · have hring : ((rings (c.part % n)).insert c buffer).map
        (fun out => (Answer.added out.1, out.2)) = some (answer, r₁) := hsome
    rw [hinsert, Option.map_some, Option.some.injEq, Prod.mk.injEq] at hring
    obtain ⟨rfl, rfl⟩ := hring
    obtain ⟨added', s₁, hadd, hpure⟩ := of_bind_ok hrun
    obtain ⟨hadded, rfl⟩ := EStateM.Result.ok.inj hpure
    cases hadded
    exact ⟨_, hadd, hholds⟩

/-- A call that returned has the ring take the chunk. -/
theorem cacheAddChunk_holds (h : CacheHolds s.mem base n rings) (hn : 1 ≤ n) {c : Checksum}
    {buffer : List UInt8} (hlo : 2049 ≤ buffer.length) (hhi : buffer.length ≤ 24576) {added : Bool}
    (hrun : cacheAddChunk (cacheAt base n) c buffer s = .ok added s') :
    ∃ r', (rings (c.part % n)).insert c buffer = some (added, r') ∧
      CacheHolds s'.mem base n (Function.update rings (c.part % n) r') := by
  cases hinsert : (rings (c.part % n)).insert c buffer with
  | none =>
      rcases Cache.call_refines h hn
        (show (CacheCall.addChunk c buffer).Sized 2049 24576 from ⟨hlo, hhi⟩) with
        ⟨s₁, -, herror⟩ | ⟨answer, r₁, s₁, hsome, -⟩
      · have hok : (cacheAt base n).call (.addChunk c buffer) s = .ok (.added added) s' :=
          bind_ok hrun _
        rw [hok] at herror
        cases herror
      · have hring : ((rings (c.part % n)).insert c buffer).map
            (fun out => (Answer.added out.1, out.2)) = some (answer, r₁) := hsome
        rw [hinsert] at hring
        cases hring
  | some out =>
      obtain ⟨s₁, hrun', hholds⟩ := cacheAddChunk_run h hn hlo hhi hinsert
      rw [hrun, EStateM.Result.ok.injEq] at hrun'
      obtain ⟨rfl, rfl⟩ := hrun'
      exact ⟨out.2, rfl, hholds⟩

theorem Cache.calls_cons_ok {cache : Cache} {call : CacheCall} {rest : List CacheCall}
    {answer : Answer} {answers : List Answer} {s'' : Store} (hcall : cache.call call s = .ok answer s')
    (hrest : cache.calls rest s' = .ok answers s'') :
    cache.calls (call :: rest) s = .ok (answer :: answers) s'' := by
  rw [Cache.calls, bind_ok hcall, bind_ok hrest]
  rfl

/-! ## Cells are independent -/

theorem after_sameSlab {j : Nat} {es : List (Event Site)} (hes : ∀ e ∈ es, Inside (slabOf base i) e)
    (hne : i ≠ j) : SameSlab base j s (s.after es) :=
  inside_sameSlab ⟨es, rfl, rfl, hes⟩ hne

/-- A run of calls leaves the header slot alone. -/
theorem Cache.calls_holds {calls : List CacheCall} {answers : List Answer}
    (h : CacheHolds s.mem base n rings) (hn : 1 ≤ n) (hsized : ∀ call ∈ calls, call.Sized 2049 24576)
    (hrun : (cacheAt base n).calls calls s = .ok answers s') :
    (∃ rings', CacheHolds s'.mem base n rings') ∧
      s.mem.Agree s'.mem base (base + cacheCellSize) := by
  induction calls generalizing s rings answers with
  | nil =>
      rw [Cache.calls, pure_run, EStateM.Result.ok.injEq] at hrun
      obtain ⟨-, rfl⟩ := hrun
      exact ⟨⟨rings, h⟩, Mem.Agree.refl _ _ _⟩
  | cons call rest ih =>
      rw [Cache.calls] at hrun
      obtain ⟨answer, s₁, hcall, hrest⟩ := of_bind_ok hrun
      obtain ⟨answers', s₂, hrest', hpure⟩ := of_bind_ok hrest
      rw [pure_run, EStateM.Result.ok.injEq] at hpure
      obtain ⟨-, rfl⟩ := hpure
      obtain ⟨es, rfl, ⟨rings', hholds⟩, hes, -⟩ :=
        Cache.call_returned h hn (hsized call List.mem_cons_self) hcall
      obtain ⟨hend, hheader⟩ :=
        ih hholds (fun call' hmem => hsized call' (List.mem_cons_of_mem _ hmem)) hrest'
      refine ⟨hend, Mem.Agree.trans (replay_agree fun e he => ?_) hheader⟩
      exact hes e he _ _ (Or.inl (base_add_le base _))

/-- Calls that go to different cells commute. -/
theorem Cache.calls_commute {x y : CacheCall} {a b : Answer} (h : CacheHolds s.mem base n rings)
    (hn : 1 ≤ n) (hx : x.Sized 2049 24576) (hy : y.Sized 2049 24576) (hne : x.index n ≠ y.index n)
    (hrun : (cacheAt base n).calls [x, y] s = .ok [a, b] s') :
    ∃ s'', (cacheAt base n).calls [y, x] s = .ok [b, a] s'' ∧ s''.mem = s'.mem := by
  obtain ⟨a', s₁, hcallx, hrest⟩ := of_bind_ok hrun
  obtain ⟨bs, s₂, hrest', hpure⟩ := of_bind_ok hrest
  obtain ⟨b', s₃, hcally, hpure'⟩ := of_bind_ok hrest'
  obtain ⟨rfl, rfl⟩ := EStateM.Result.ok.inj hpure'
  obtain ⟨hanswers, rfl⟩ := EStateM.Result.ok.inj hpure
  simp only [List.cons.injEq, and_true] at hanswers
  obtain ⟨rfl, rfl⟩ := hanswers
  obtain ⟨ex, rfl, ⟨_, hholdsx⟩, hex, halonex⟩ := Cache.call_returned h hn hx hcallx
  obtain ⟨ey, rfl, -, hey, haloney⟩ := Cache.call_returned hholdsx hn hy hcally
  -- the second call does the same when it comes first
  have hcally' : (cacheAt base n).call y s = .ok b' (s.after ey) := by
    rw [Cache.call_eq h hn]
    exact haloney s (after_sameSlab hex hne).symm
  obtain ⟨ey', hey', ⟨_, hholdsy⟩, -, -⟩ := Cache.call_returned h hn hy hcally'
  have hcallx' : (cacheAt base n).call x (s.after ey) = .ok a' ((s.after ey).after ex) := by
    rw [Cache.call_eq hholdsy hn]
    exact halonex _ (after_sameSlab hey hne.symm)
  refine ⟨(s.after ey).after ex, ?_, ?_⟩
  · rw [Cache.calls, bind_ok hcally', Cache.calls, bind_assoc, bind_ok hcallx']
    rfl
  · refine replay_comm s.mem fun addr => ?_
    rcases Nat.lt_or_gt_of_ne hne with hlt | hgt
    · have := slabOf_add_le base hlt
      by_cases haddr : addr < slabOf base (y.index n)
      · exact Or.inl fun e he => hey e he _ _ (Or.inl haddr)
      · exact Or.inr fun e he => hex e he _ _ (Or.inr (by omega))
    · have := slabOf_add_le base hgt
      by_cases haddr : addr < slabOf base (x.index n)
      · exact Or.inr fun e he => hex e he _ _ (Or.inl haddr)
      · exact Or.inl fun e he => hey e he _ _ (Or.inr (by omega))

/-- A cell alone, given its own calls only, answers them alike and ends with the same slab. -/
theorem Cache.calls_alone {calls : List CacheCall} {answers : List Answer}
    (h : CacheHolds s.mem base n rings) (hn : 1 ≤ n) (hsized : ∀ call ∈ calls, call.Sized 2049 24576)
    (hrun : (cacheAt base n).calls calls s = .ok answers s') (hsame : SameSlab base i s t) :
    ∃ t', (cellAt (slabOf base i)).calls (callsOf n i calls) t =
      .ok (answersOf n i calls answers) t' ∧ SameSlab base i s' t' := by
  induction calls generalizing s t rings answers with
  | nil =>
      rw [Cache.calls, pure_run, EStateM.Result.ok.injEq] at hrun
      obtain ⟨rfl, rfl⟩ := hrun
      exact ⟨t, rfl, hsame⟩
  | cons call rest ih =>
      rw [Cache.calls] at hrun
      obtain ⟨answer, s₁, hcall, hrest⟩ := of_bind_ok hrun
      obtain ⟨answers', s₂, hrest', hpure⟩ := of_bind_ok hrest
      rw [pure_run, EStateM.Result.ok.injEq] at hpure
      obtain ⟨rfl, rfl⟩ := hpure
      obtain ⟨es, rfl, ⟨rings', hholds⟩, hes, halone⟩ :=
        Cache.call_returned h hn (hsized call List.mem_cons_self) hcall
      have ih' : ∀ t, SameSlab base i (s.after es) t → _ := fun t =>
        ih (t := t) hholds (fun call' hmem => hsized call' (List.mem_cons_of_mem _ hmem)) hrest'
      by_cases hindex : call.index n = i
      · subst hindex
        obtain ⟨t', hrunt, hsame'⟩ := ih' (t.after es) (replay_same hsame es)
        refine ⟨t', ?_, hsame'⟩
        rw [callsOf_own rfl, answersOf_own rfl, Cell.calls, bind_ok (halone t hsame), bind_ok hrunt]
        rfl
      · have hbeside : SameSlab base i s (s.after es) := after_sameSlab hes hindex
        obtain ⟨t', hrunt, hsame'⟩ := ih' t (hbeside.symm.trans hsame)
        refine ⟨t', ?_, hsame'⟩
        rw [callsOf_other hindex, answersOf_other hindex]
        exact hrunt

/-- The cells of a cache are independent: each answers its own calls and ends with the same slab as
when it is run alone, the slot of the header stays as `cache_init` left it, and calls that go to
different cells commute. -/
theorem cells_independent {s₁ s₂ : Store} {cache : Cache} {calls : List CacheCall}
    {answers : List Answer} (hn : 1 ≤ n) (hsize : (n + 1) * cacheCellSize < 2 ^ 64)
    (hz : s.mem.Zero base (base + (n + 1) * cacheCellSize))
    (hinit : cacheInit base ((n + 1) * cacheCellSize) s = .ok cache s₁)
    (hsized : ∀ call ∈ calls, call.Sized 2049 24576)
    (hrun : cache.calls calls s₁ = .ok answers s₂) :
    (∀ i < n, ∀ t : Store, t.mem.Zero (slabOf base i) (slabOf base i + cacheCellSize) →
      ∃ cell t₁ t₂, cellInit (slabOf base i) cacheCellSize t = .ok cell t₁ ∧
        cell.calls (callsOf n i calls) t₁ = .ok (answersOf n i calls answers) t₂ ∧
        s₂.mem.Agree t₂.mem (slabOf base i) (slabOf base i + cacheCellSize)) ∧
    s₁.mem.Agree s₂.mem base (base + cacheCellSize) ∧
    ∀ x y : CacheCall, x.Sized 2049 24576 → y.Sized 2049 24576 → x.index n ≠ y.index n →
      ∀ a b s₃, cache.calls [x, y] s₂ = .ok [a, b] s₃ →
        ∃ s₃', cache.calls [y, x] s₂ = .ok [b, a] s₃' ∧ s₃'.mem = s₃.mem := by
  obtain ⟨s₁', hinit', hholds, halone⟩ := cacheInit_zero hn (slots_eq n) hsize hz
  rw [hinit', EStateM.Result.ok.injEq] at hinit
  obtain ⟨rfl, rfl⟩ := hinit
  obtain ⟨⟨rings', hholds'⟩, hheader⟩ := Cache.calls_holds hholds hn hsized hrun
  refine ⟨fun i hi t hzt => ?_, hheader, fun x y hx hy hne a b s₃ hxy =>
    Cache.calls_commute hholds' hn hx hy hne hxy⟩
  obtain ⟨t₁, hinitt, hsame⟩ := halone i hi t hzt
  obtain ⟨t₂, hrunt, hsame'⟩ := Cache.calls_alone hholds hn hsized hrun hsame
  exact ⟨_, t₁, t₂, hinitt, hrunt, hsame'⟩

/-- A cache of two cells takes a chunk in each. -/
theorem cacheAddChunk_two : ∃ s₁ s₂ s₃ rings,
    cacheInit 0 ((2 + 1) * cacheCellSize) zeroed = .ok (cacheAt 0 2) s₁ ∧
    cacheAddChunk (cacheAt 0 2) (.fill 1) (someBytes 2049) s₁ = .ok true s₂ ∧
    cacheAddChunk (cacheAt 0 2) (.fill 2) (someBytes 2049) s₂ = .ok true s₃ ∧
    CacheHolds s₃.mem 0 2 rings ∧
    rings 0 = Ring.empty.push (chunkOf (.fill 2) (someBytes 2049)) ∧
    rings 1 = Ring.empty.push (chunkOf (.fill 1) (someBytes 2049)) := by
  have hone : (Checksum.fill 1).part % 2 = 1 := by decide +kernel
  have htwo : (Checksum.fill 2).part % 2 = 0 := by decide +kernel
  obtain ⟨hlo, hhi⟩ := someBytes_sized
  obtain ⟨s₁, hinit, hholds, -⟩ := cacheInit_zero (by decide) (slots_eq 2) (slots_lt (by decide))
    (zeroed_zero 0 (0 + (2 + 1) * cacheCellSize))
  obtain ⟨s₂, hrun, hholds₂⟩ :=
    cacheAddChunk_run hholds (by decide) hlo hhi (Ring.empty_insert (.fill 1) hhi)
  rw [hone] at hholds₂
  have hinsert := Ring.empty_insert (.fill 2) hhi
  rw [← Function.update_of_ne (show 0 ≠ 1 by decide)
    (Ring.empty.push (chunkOf (.fill 1) (someBytes 2049))) fun _ => Ring.empty, ← htwo] at hinsert
  obtain ⟨s₃, hrun', hholds₃⟩ := cacheAddChunk_run hholds₂ (by decide) hlo hhi hinsert
  rw [htwo] at hholds₃
  exact ⟨s₁, s₂, s₃, _, hinit, hrun, hrun', hholds₃, Function.update_self _ _ _,
    (Function.update_of_ne (by decide) _ _).trans (Function.update_self _ _ _)⟩

/-- Two cells with interleaved calls, and two calls that commute. -/
theorem cells_independent_two : ∃ s₁ s₂,
    cacheInit 0 ((2 + 1) * cacheCellSize) zeroed = .ok (cacheAt 0 2) s₁ ∧
    (cacheAt 0 2).calls [.addChunk (.fill 1) (someBytes 2049), .addChunk (.fill 2) (someBytes 2049),
      .hasChunk (.fill 1), .hasChunk (.fill 2)] s₁ =
        .ok [.added true, .added true, .has true, .has true] s₂ ∧
    (∃ cell t₁ t₂, cellInit (slabOf 0 0) cacheCellSize zeroed = .ok cell t₁ ∧
      cell.calls [.addChunk (.fill 2) (someBytes 2049), .hasChunk (.fill 2)] t₁ =
        .ok [.added true, .has true] t₂ ∧
      s₂.mem.Agree t₂.mem (slabOf 0 0) (slabOf 0 0 + cacheCellSize)) ∧
    (∃ cell t₁ t₂, cellInit (slabOf 0 1) cacheCellSize zeroed = .ok cell t₁ ∧
      cell.calls [.addChunk (.fill 1) (someBytes 2049), .hasChunk (.fill 1)] t₁ =
        .ok [.added true, .has true] t₂ ∧
      s₂.mem.Agree t₂.mem (slabOf 0 1) (slabOf 0 1 + cacheCellSize)) ∧
    s₁.mem.Agree s₂.mem 0 (0 + cacheCellSize) ∧
    ∃ s₃ s₃', (cacheAt 0 2).calls [.addChunk (.fill 3) (someBytes 2049),
        .addChunk (.fill 4) (someBytes 2049)] s₂ = .ok [.added true, .added true] s₃ ∧
      (cacheAt 0 2).calls [.addChunk (.fill 4) (someBytes 2049),
        .addChunk (.fill 3) (someBytes 2049)] s₂ = .ok [.added true, .added true] s₃' ∧
      s₃'.mem = s₃.mem := by
  obtain ⟨s₁, t, s₂, rings, hinit, hadd, hadd', hholds, hzero, hone⟩ := cacheAddChunk_two
  obtain ⟨hlo, hhi⟩ := someBytes_sized
  have hhas : cacheHasChunk (cacheAt 0 2) (.fill 1) s₂ = .ok true s₂ := by
    rw [cacheHasChunk_run hholds (by decide), show (Checksum.fill 1).part % 2 = 1 by decide +kernel,
      hone]
    rfl
  have hhas' : cacheHasChunk (cacheAt 0 2) (.fill 2) s₂ = .ok true s₂ := by
    rw [cacheHasChunk_run hholds (by decide), show (Checksum.fill 2).part % 2 = 0 by decide +kernel,
      hzero]
    rfl
  have hrun : (cacheAt 0 2).calls [.addChunk (.fill 1) (someBytes 2049),
      .addChunk (.fill 2) (someBytes 2049), .hasChunk (.fill 1), .hasChunk (.fill 2)] s₁ =
        .ok [.added true, .added true, .has true, .has true] s₂ :=
    Cache.calls_cons_ok (bind_ok hadd _) (Cache.calls_cons_ok (bind_ok hadd' _)
      (Cache.calls_cons_ok (bind_ok hhas _) (Cache.calls_cons_ok (bind_ok hhas' _) rfl)))
  have hcalls : ∀ call ∈ [CacheCall.addChunk (.fill 1) (someBytes 2049),
      .addChunk (.fill 2) (someBytes 2049), .hasChunk (.fill 1), .hasChunk (.fill 2)],
      call.Sized 2049 24576 := by
    simp [CacheCall.Sized, CacheCall.onCell, Call.Sized]
  obtain ⟨halone, hheader, hcommute⟩ := cells_independent (by decide) (slots_lt (by decide))
    (zeroed_zero 0 (0 + (2 + 1) * cacheCellSize)) hinit hcalls hrun
  -- one more chunk for each cell
  have hthree : (Checksum.fill 3).part % 2 = 1 := by decide +kernel
  have hfour : (Checksum.fill 4).part % 2 = 0 := by decide +kernel
  have hfirst : ((Ring.empty.push (chunkOf (.fill 1) (someBytes 2049))).insert (.fill 3)
      (someBytes 2049)).map Prod.fst = some true := by decide +kernel
  have hsecond : ((Ring.empty.push (chunkOf (.fill 2) (someBytes 2049))).insert (.fill 4)
      (someBytes 2049)).map Prod.fst = some true := by decide +kernel
  obtain ⟨⟨_, r₁⟩, hinsert, rfl⟩ := Option.map_eq_some_iff.1 hfirst
  obtain ⟨⟨_, r₂⟩, hinsert', rfl⟩ := Option.map_eq_some_iff.1 hsecond
  rw [← hone, ← hthree] at hinsert
  obtain ⟨s₃, hmore, hholds₃⟩ := cacheAddChunk_run hholds (by decide) hlo hhi hinsert
  rw [hthree] at hholds₃
  rw [← hzero, ← Function.update_of_ne (show 0 ≠ 1 by decide) r₁ rings, ← hfour] at hinsert'
  obtain ⟨s₄, hmore', -⟩ := cacheAddChunk_run hholds₃ (by decide) hlo hhi hinsert'
  have hpair : (cacheAt 0 2).calls [.addChunk (.fill 3) (someBytes 2049),
      .addChunk (.fill 4) (someBytes 2049)] s₂ = .ok [.added true, .added true] s₄ :=
    Cache.calls_cons_ok (bind_ok hmore _) (Cache.calls_cons_ok (bind_ok hmore' _) rfl)
  have hne : (CacheCall.addChunk (.fill 3) (someBytes 2049)).index 2 ≠
      (CacheCall.addChunk (.fill 4) (someBytes 2049)).index 2 := by
    rw [CacheCall.index, CacheCall.index]
    show (Checksum.fill 3).part % 2 ≠ (Checksum.fill 4).part % 2
    rw [hthree, hfour]
    decide
  obtain ⟨s₄', hpair', hmem⟩ := hcommute (.addChunk (.fill 3) (someBytes 2049))
    (.addChunk (.fill 4) (someBytes 2049)) someBytes_sized someBytes_sized hne _ _ s₄ hpair
  exact ⟨s₁, s₂, hinit, hrun, halone 0 (by decide) zeroed (zeroed_zero _ _),
    halone 1 (by decide) zeroed (zeroed_zero _ _), hheader, s₄, s₄', hpair, hpair', hmem⟩

end

end Theo
