import Mathlib.Logic.Function.Basic
import Mathlib.Logic.Relation
import Theo.Lib.Threads

set_option autoImplicit false

/-! # Objects behind locks

Objects lie side by side in one memory, each in a window of its own and behind a lock of its own.
Threads call them: a call gets the lock of its object, stores one event after the other while other
calls do the same elsewhere, and gives the lock back (`Objects.Step`). What an object is for is said by
`spec`, which takes a state to the next, and `Rep` says that a memory holds a state.

Where the objects keep to their windows (`Objects.Lawful`), the calls are linearizable in the order in
which they got their locks (`Objects.linearizable`). And if no crash in a call leaves anything but the
state before it, the one behind it, or a torn object, then a crash of all threads leaves every object
torn, or as after its last call that finished or the one under way (`Objects.crash_atomic`). -/

namespace ByteMachine

/-! ## Runs of a specification -/

section Runs

variable {State Call Answer : Type}

/-- Calls one after the other, and their answers. -/
def runAll (step : State → Call → Option (Answer × State)) (a : State) :
    List Call → Option (List Answer × State)
  | [] => some ([], a)
  | call :: rest =>
      (step a call).bind fun out => (runAll step out.2 rest).map fun outs =>
        (out.1 :: outs.1, outs.2)

variable {step : State → Call → Option (Answer × State)} {a a' a'' : State} {calls : List Call}
  {call : Call} {answers : List Answer} {answer : Answer}

theorem runAll_cons (h : runAll step a (call :: calls) = some (answers, a'')) :
    ∃ answer a' answers', step a call = some (answer, a') ∧
      runAll step a' calls = some (answers', a'') ∧ answers = answer :: answers' := by
  obtain ⟨⟨answer, a'⟩, hcall, hmap⟩ := Option.bind_eq_some_iff.1 h
  obtain ⟨⟨answers', a₂⟩, hrest, heq⟩ := Option.map_eq_some_iff.1 hmap
  rw [Prod.mk.injEq] at heq
  obtain ⟨rfl, rfl⟩ := heq
  exact ⟨answer, a', answers', hcall, hrest, rfl⟩

theorem runAll_cons_of (hcall : step a call = some (answer, a'))
    (hrest : runAll step a' calls = some (answers, a'')) :
    runAll step a (call :: calls) = some (answer :: answers, a'') := by
  rw [runAll, hcall, Option.bind_some, hrest]
  rfl

theorem runAll_snoc (h : runAll step a calls = some (answers, a'))
    (hcall : step a' call = some (answer, a'')) :
    runAll step a (calls ++ [call]) = some (answers ++ [answer], a'') := by
  induction calls generalizing a answers with
  | nil =>
      rw [runAll, Option.some.injEq, Prod.mk.injEq] at h
      obtain ⟨rfl, rfl⟩ := h
      exact runAll_cons_of hcall rfl
  | cons call' calls ih =>
      obtain ⟨answer', a₁, answers', hcall', hrest, rfl⟩ := runAll_cons h
      exact runAll_cons_of hcall' (ih hrest)

end Runs

/-! ## Objects -/

/-- A call under way: what it still has to do, and whether it returns then. -/
structure Job (τ : Type) where
  rest : List (Event τ)
  returns : Bool

/-- The memory, what was stored in it by whom, the calls that got their lock with the answers that they
will return, and the calls that hold a lock. -/
structure Locked (ι τ Call Answer : Type) where
  mem : Mem
  log : List (ι × Event τ)
  begun : List (Call × Answer)
  held : ι → Option (Job τ)

namespace Locked

variable {ι τ Call Answer : Type}

def start (m : Mem) : Locked ι τ Call Answer := ⟨m, [], [], fun _ => none⟩

/-- A call that will return with `answer`, if with any. -/
def begin (σ : Locked ι τ Call Answer) (call : Call) (answer : Option Answer) :
    Locked ι τ Call Answer :=
  { σ with begun := σ.begun ++ (answer.map fun answer => (call, answer)).toList }

def issue (σ : Locked ι τ Call Answer) (i : ι) (e : Event τ) : Locked ι τ Call Answer :=
  { σ with mem := e.apply σ.mem, log := σ.log ++ [(i, e)] }

variable [DecidableEq ι]

def hold (σ : Locked ι τ Call Answer) (i : ι) (job : Option (Job τ)) : Locked ι τ Call Answer :=
  { σ with held := Function.update σ.held i job }

theorem hold_self (σ : Locked ι τ Call Answer) (i : ι) (job : Option (Job τ)) :
    (σ.hold i job).held i = job := by simp [hold]

theorem hold_other (σ : Locked ι τ Call Answer) {i j : ι} (h : j ≠ i) (job : Option (Job τ)) :
    (σ.hold i job).held j = σ.held j := by simp [hold, h]

end Locked

/-- Objects of type `ι` in one memory. Object `i` lies between `lo i` and `hi i`; what lies between
`fixedLo` and `fixedHi` is read by all of them. -/
structure Objects (ι τ Call Answer State : Type) where
  index : Call → ι
  lo : ι → Nat
  hi : ι → Nat
  fixedLo : Nat
  fixedHi : Nat
  /-- The calls that are made. -/
  Allowed : Call → Prop
  /-- What a call does on a memory, and its answer if it returns. -/
  run : Call → Mem → List (Event τ) × Option Answer
  spec : State → Call → Option (Answer × State)
  Rep : ι → State → Mem → Prop
  Torn : ι → Mem → Prop

namespace Objects

variable {ι τ Call Answer State : Type} [DecidableEq ι] (O : Objects ι τ Call Answer State)

/-- Object `i` does not tell the memories apart. -/
def Same (i : ι) (m m' : Mem) : Prop :=
  m.Agree m' (O.lo i) (O.hi i) ∧ m.Agree m' O.fixedLo O.fixedHi

/-- An event of object `i`. -/
def Inside (i : ι) (e : Event τ) : Prop :=
  e.Avoids O.fixedLo O.fixedHi ∧ ∀ j, j ≠ i → e.Avoids (O.lo j) (O.hi j)

/-- What a crash in `es` may leave of object `i`, which was in state `a` in the memory `m` and is to be
in state `a'`. -/
def CrashSafe (i : ι) (m : Mem) (es : List (Event τ)) (a a' : State) : Prop :=
  ∀ d, Crash m es d → O.Rep i a d ∨ O.Torn i d ∨ O.Rep i a' d

/-- The events `es` take object `i` from state `a` to state `a'`. -/
structure Takes (i : ι) (m : Mem) (es : List (Event τ)) (a a' : State) : Prop where
  crash : O.CrashSafe i m es a a'
  rep : O.Rep i a' (replay m es)
  ended : Ended es

structure Lawful : Prop where
  rep_same : ∀ {i a m m'}, O.Rep i a m → O.Same i m m' → O.Rep i a m'
  torn_same : ∀ {i m m'}, O.Torn i m → O.Same i m m' → O.Torn i m'
  inside : ∀ {call m a}, O.Allowed call → O.Rep (O.index call) a m →
    ∀ e ∈ (O.run call m).1, O.Inside (O.index call) e
  returns : ∀ {call m a answer a'}, O.Allowed call → O.Rep (O.index call) a m →
    O.spec a call = some (answer, a') →
      (O.run call m).2 = some answer ∧ O.Takes (O.index call) m (O.run call m).1 a a'
  aborts : ∀ {call m a}, O.Allowed call → O.Rep (O.index call) a m → O.spec a call = none →
    (O.run call m).2 = none ∧ O.CrashSafe (O.index call) m (O.run call m).1 a a
  /-- A call that returns reads its own object only. -/
  run_same : ∀ {call m m' a answer a'}, O.Allowed call → O.Rep (O.index call) a m →
    O.spec a call = some (answer, a') → O.Same (O.index call) m m' → O.run call m' = O.run call m

/-- One step of some thread. What a call does is decided when it gets the lock: it reads its own object
only, and no other call stores there before it returns. -/
inductive Step : Locked ι τ Call Answer → Locked ι τ Call Answer → Prop
  | lock {σ call} (hcall : O.Allowed call) (hfree : σ.held (O.index call) = none) :
      Step σ ((σ.begin call (O.run call σ.mem).2).hold (O.index call)
        (some ⟨(O.run call σ.mem).1, (O.run call σ.mem).2.isSome⟩))
  | act {σ i e rest returns} (hheld : σ.held i = some ⟨e :: rest, returns⟩) :
      Step σ ((σ.issue i e).hold i (some ⟨rest, returns⟩))
  | unlock {σ i} (hheld : σ.held i = some ⟨[], true⟩) : Step σ (σ.hold i none)

/-- The calls of object `i` that got their lock and will return. -/
def own (σ : Locked ι τ Call Answer) (i : ι) : List Call :=
  (σ.begun.map Prod.fst).filter fun call => O.index call = i

/-- Those of them that are not under way any more. -/
def finished (σ : Locked ι τ Call Answer) (i : ι) : List Call :=
  match σ.held i with
  | some ⟨_, true⟩ => (O.own σ i).dropLast
  | _ => O.own σ i

/-- A call on all objects together. -/
def specAll (a : ι → State) (call : Call) : Option (Answer × (ι → State)) :=
  (O.spec (a (O.index call)) call).map fun out =>
    (out.1, Function.update a (O.index call) out.2)

section Specs

variable {O} {a a' : ι → State} {calls : List Call} {call : Call} {answers : List Answer} {i : ι}

/-- Each object sees its own calls only. -/
theorem runAll_own (h : runAll O.specAll a calls = some (answers, a')) (i : ι) :
    ∃ answers', runAll O.spec (a i) (calls.filter fun call => O.index call = i) =
      some (answers', a' i) := by
  induction calls generalizing a answers with
  | nil =>
      rw [runAll, Option.some.injEq, Prod.mk.injEq] at h
      obtain ⟨-, rfl⟩ := h
      exact ⟨[], rfl⟩
  | cons call calls ih =>
      obtain ⟨answer, a₁, answers₁, hcall, hrest, rfl⟩ := runAll_cons h
      obtain ⟨⟨answer', b⟩, hspec, heq⟩ := Option.map_eq_some_iff.1 hcall
      rw [Prod.mk.injEq] at heq
      obtain ⟨rfl, rfl⟩ := heq
      obtain ⟨answers', hown⟩ := ih hrest
      by_cases hi : O.index call = i
      · subst hi
        rw [Function.update_self] at hown
        rw [List.filter_cons_of_pos (by simp)]
        exact ⟨_, runAll_cons_of hspec hown⟩
      · rw [Function.update_of_ne (Ne.symm hi)] at hown
        rw [List.filter_cons_of_neg (by simpa using hi)]
        exact ⟨_, hown⟩

theorem mem_own {σ : Locked ι τ Call Answer} (h : call ∈ O.own σ i) :
    call ∈ σ.begun.map Prod.fst ∧ O.index call = i := by
  rw [own, List.mem_filter, decide_eq_true_eq] at h
  exact h

theorem finished_subset (O : Objects ι τ Call Answer State) (σ : Locked ι τ Call Answer) (i : ι) :
    O.finished σ i ⊆ O.own σ i := by
  rw [finished]
  split
  · exact List.dropLast_subset _
  · exact List.Subset.refl _

end Specs

/-! ## What holds of every interleaving -/

/-- Object `i` is in state `a`, or a call is under way that takes it there. -/
structure Holds (m : Mem) (a₀ : State) (σ : Locked ι τ Call Answer) (i : ι) (a : State) :
    Prop where
  idle : σ.held i = none → Ended (eventsOf i σ.log) ∧ O.Rep i a (replay m (eventsOf i σ.log))
  busy : ∀ job, σ.held i = some job → (∀ e ∈ job.rest, O.Inside i e) ∧
    ∃ done part a₁ answers, eventsOf i σ.log = done ++ part ∧ Ended done ∧
      O.Rep i a₁ (replay m done) ∧ runAll O.spec a₀ (O.finished σ i) = some (answers, a₁) ∧
      O.CrashSafe i (replay m done) (part ++ job.rest) a₁ a ∧
      (job.returns = true → O.Takes i (replay m done) (part ++ job.rest) a₁ a)

structure Consistent (m : Mem) (a₀ : ι → State) (σ : Locked ι τ Call Answer) (a : ι → State) :
    Prop where
  mem : σ.mem = replay m (σ.log.map Prod.snd)
  inside : ∀ x ∈ σ.log, O.Inside x.1 x.2
  specs : runAll O.specAll a₀ (σ.begun.map Prod.fst) = some (σ.begun.map Prod.snd, a)
  object : ∀ i, O.Holds m (a₀ i) σ i (a i)

variable {O} {m m' d : Mem} {σ σ' : Locked ι τ Call Answer} {i : ι} {a a' : State}
  {es : List (Event τ)} {init state : ι → State}

omit [DecidableEq ι] in
theorem Same.symm (h : O.Same i m m') : O.Same i m' m := ⟨h.1.symm, h.2.symm⟩

omit [DecidableEq ι] in
theorem CrashSafe.same (h : O.CrashSafe i m es a a') (hlaw : O.Lawful) (hsame : O.Same i m' m) :
    O.CrashSafe i m' es a a' := by
  intro d hcrash
  obtain ⟨d', hcrash', hagree⟩ := hcrash.same m
  have hsame' : O.Same i d' d :=
    Same.symm ⟨hagree _ _ hsame.1, hagree _ _ hsame.2⟩
  rcases h d' hcrash' with hrep | htorn | hrep
  · exact Or.inl (hlaw.rep_same hrep hsame')
  · exact Or.inr (Or.inl (hlaw.torn_same htorn hsame'))
  · exact Or.inr (Or.inr (hlaw.rep_same hrep hsame'))

/-- An object that nothing happened to. -/
theorem Holds.congr {m : Mem} {a₀ : State} (h : O.Holds m a₀ σ i a) (hheld : σ'.held i = σ.held i)
    (hlog : eventsOf i σ'.log = eventsOf i σ.log) (hown : O.own σ' i = O.own σ i) :
    O.Holds m a₀ σ' i a := by
  have hfinished : O.finished σ' i = O.finished σ i := by rw [finished, finished, hheld, hown]
  constructor
  · rw [hheld, hlog]
    exact h.idle
  · rw [hheld, hlog, hfinished]
    exact h.busy

/-- Each object sees what its own calls did. -/
theorem Consistent.same (h : O.Consistent m init σ state) (i : ι) :
    O.Same i (replay m (eventsOf i σ.log)) σ.mem := by
  rw [h.mem]
  exact ⟨(replay_eventsOf fun x hx hne => (h.inside x hx).2 i (Ne.symm hne)).symm,
    (replay_eventsOf fun x hx _ => (h.inside x hx).1).symm⟩

/-- A call does what it does where only the calls on its own object have stored anything. -/
theorem Consistent.run_alone (h : O.Consistent m init σ state) (hlaw : O.Lawful) {call : Call}
    (hcall : O.Allowed call) (hfree : σ.held (O.index call) = none) {answer : Answer}
    (hspec : O.spec (state (O.index call)) call = some (answer, a')) :
    O.run call σ.mem = O.run call (replay m (eventsOf (O.index call) σ.log)) :=
  hlaw.run_same hcall ((h.object _).idle hfree).2 hspec (h.same _)

/-- An object that no call is under way on is in its state. -/
theorem Consistent.rep (h : O.Consistent m init σ state) (hlaw : O.Lawful) (hidle : σ.held i = none) :
    O.Rep i (state i) σ.mem :=
  hlaw.rep_same ((h.object i).idle hidle).2 (h.same i)

theorem own_begin (σ : Locked ι τ Call Answer) (call : Call) (answer : Answer) (i : ι) :
    O.own (σ.begin call (some answer)) i = O.own σ i ++ if O.index call = i then [call] else [] := by
  rw [own, Locked.begin, Option.map_some, Option.toList_some, List.map_append, List.filter_append,
    ← own]
  by_cases hi : O.index call = i
  · rw [if_pos hi, List.map_singleton, List.filter_cons_of_pos (by simpa using hi)]
    rfl
  · rw [if_neg hi, List.map_singleton, List.filter_cons_of_neg (by simpa using hi)]
    rfl

theorem consistent_start (hinit : ∀ i, O.Rep i (init i) m) :
    O.Consistent m init (Locked.start m) init where
  mem := rfl
  inside x hx := absurd hx List.not_mem_nil
  specs := rfl
  object i := ⟨fun _ => ⟨Or.inl rfl, hinit i⟩, fun job hjob => by cases hjob⟩

/-- A call that gets its lock and will abort. -/
theorem Consistent.lock_abort (h : O.Consistent m init σ state) (hlaw : O.Lawful) {call : Call}
    (hcall : O.Allowed call) (hfree : σ.held (O.index call) = none)
    (hspec : O.spec (state (O.index call)) call = none) :
    O.Consistent m init ((σ.begin call (O.run call σ.mem).2).hold (O.index call)
      (some ⟨(O.run call σ.mem).1, (O.run call σ.mem).2.isSome⟩)) state := by
  have hsame := h.same (O.index call)
  obtain ⟨hended, hrep⟩ := (h.object (O.index call)).idle hfree
  have hrep' : O.Rep (O.index call) (state (O.index call)) σ.mem := hlaw.rep_same hrep hsame
  obtain ⟨answers, hown⟩ := runAll_own h.specs (O.index call)
  obtain ⟨hnone, hcrash⟩ := hlaw.aborts hcall hrep' hspec
  have hbegin : σ.begin call none = σ := by
    rw [Locked.begin, Option.map_none, Option.toList_none, List.append_nil]
  rw [hnone, hbegin]
  refine ⟨h.mem, h.inside, h.specs, fun j => ?_⟩
  by_cases hj : j = O.index call
  · subst hj
    constructor
    · intro hidle
      rw [Locked.hold_self] at hidle
      cases hidle
    · intro job hjob
      rw [Locked.hold_self, Option.some.injEq] at hjob
      subst hjob
      refine ⟨hlaw.inside hcall hrep', _, [], _, answers, (List.append_nil _).symm, hended, hrep, ?_,
        hcrash.same hlaw hsame, fun hreturns => by cases hreturns⟩
      rw [finished, Locked.hold_self]
      exact hown
  · exact (h.object j).congr (Locked.hold_other _ hj _) rfl rfl

/-- A call that gets its lock and will return. -/
theorem Consistent.lock_return (h : O.Consistent m init σ state) (hlaw : O.Lawful) {call : Call}
    (hcall : O.Allowed call) (hfree : σ.held (O.index call) = none) {answer : Answer}
    (hspec : O.spec (state (O.index call)) call = some (answer, a')) :
    O.Consistent m init ((σ.begin call (O.run call σ.mem).2).hold (O.index call)
      (some ⟨(O.run call σ.mem).1, (O.run call σ.mem).2.isSome⟩))
      (Function.update state (O.index call) a') := by
  obtain ⟨hended, hrep⟩ := (h.object (O.index call)).idle hfree
  obtain ⟨answers, hown⟩ := runAll_own h.specs (O.index call)
  obtain ⟨hsome, htakes⟩ := hlaw.returns hcall hrep hspec
  rw [h.run_alone hlaw hcall hfree hspec, hsome]
  have hcallAll : O.specAll state call =
      some (answer, Function.update state (O.index call) a') := by
    rw [specAll, hspec]
    rfl
  refine ⟨h.mem, h.inside, ?_, fun j => ?_⟩
  · show runAll O.specAll init ((σ.begun ++ [(call, answer)]).map Prod.fst) =
      some ((σ.begun ++ [(call, answer)]).map Prod.snd, _)
    rw [List.map_append, List.map_append]
    exact runAll_snoc h.specs hcallAll
  by_cases hj : j = O.index call
  · subst hj
    rw [Function.update_self]
    constructor
    · intro hidle
      rw [Locked.hold_self] at hidle
      cases hidle
    · intro job hjob
      rw [Locked.hold_self, Option.some.injEq] at hjob
      subst hjob
      refine ⟨hlaw.inside hcall hrep, _, [], _, answers, (List.append_nil _).symm, hended, hrep, ?_,
        htakes.crash, fun _ => htakes⟩
      -- the calls that finished are those from before
      have howned : O.own (σ.begin call (some answer)) (O.index call) =
          O.own σ (O.index call) ++ [call] := by rw [own_begin, if_pos rfl]
      rw [finished, Locked.hold_self]
      show runAll O.spec _ (O.own (σ.begin call (some answer)) (O.index call)).dropLast = _
      rw [howned, List.dropLast_concat]
      exact hown
  · rw [Function.update_of_ne hj]
    refine (h.object j).congr (Locked.hold_other _ hj _) rfl ?_
    show O.own (σ.begin call (some answer)) j = O.own σ j
    rw [own_begin, if_neg (Ne.symm hj), List.append_nil]

/-- A call that stores. -/
theorem Consistent.act (h : O.Consistent m init σ state) {e : Event τ} {rest : List (Event τ)}
    {returns : Bool} (hheld : σ.held i = some ⟨e :: rest, returns⟩) :
    O.Consistent m init ((σ.issue i e).hold i (some ⟨rest, returns⟩)) state := by
  obtain ⟨hinside, done, part, a₁, answers, hlog, hended, hrep, hrun, hcrash, htakes⟩ :=
    (h.object i).busy _ hheld
  rw [List.forall_mem_cons] at hinside
  refine ⟨?_, ?_, h.specs, fun j => ?_⟩
  · show e.apply σ.mem = replay m ((σ.log ++ [(i, e)]).map Prod.snd)
    rw [List.map_append, replay_append, ← h.mem]
    rfl
  · intro x hx
    rcases List.mem_append.1 hx with hx | hx
    · exact h.inside x hx
    · rw [List.mem_singleton.1 hx]
      exact hinside.1
  have hevents : ∀ j, eventsOf j ((σ.issue i e).hold i (some ⟨rest, returns⟩)).log =
      eventsOf j σ.log ++ eventsOf j [(i, e)] := fun j => eventsOf_append _ _ _
  by_cases hj : j = i
  · subst hj
    have hpart : part ++ [e] ++ rest = part ++ e :: rest := by
      rw [List.append_assoc, List.singleton_append]
    constructor
    · intro hidle
      rw [Locked.hold_self] at hidle
      cases hidle
    · intro job hjob
      rw [Locked.hold_self, Option.some.injEq] at hjob
      subst hjob
      refine ⟨hinside.2, done, part ++ [e], a₁, answers, ?_, hended, hrep, ?_, ?_, ?_⟩
      · rw [hevents, eventsOf_own, hlog, List.append_assoc]
      · rw [← hrun, finished, finished, Locked.hold_self, hheld]
        cases returns with
        | true => rfl
        | false => rfl
      · rw [hpart]
        exact hcrash
      · rw [hpart]
        exact htakes
  · refine (h.object j).congr (Locked.hold_other _ hj _) ?_ rfl
    rw [hevents, eventsOf_other (Ne.symm hj), List.append_nil]

/-- A call that returns. -/
theorem Consistent.unlock (h : O.Consistent m init σ state)
    (hheld : σ.held i = some ⟨[], true⟩) : O.Consistent m init (σ.hold i none) state := by
  obtain ⟨-, done, part, a₁, answers, hlog, hended, -, -, -, htakes⟩ := (h.object i).busy _ hheld
  refine ⟨h.mem, h.inside, h.specs, fun j => ?_⟩
  by_cases hj : j = i
  · subst hj
    have htakes := htakes rfl
    rw [List.append_nil] at htakes
    constructor
    · intro _
      show Ended (eventsOf j σ.log) ∧ O.Rep j (state j) (replay m (eventsOf j σ.log))
      rw [hlog, replay_append]
      exact ⟨hended.append htakes.ended, htakes.rep⟩
    · intro job hjob
      rw [Locked.hold_self] at hjob
      cases hjob
  · exact (h.object j).congr (Locked.hold_other _ hj _) rfl rfl

theorem Consistent.step (h : O.Consistent m init σ state) (hlaw : O.Lawful) (hstep : O.Step σ σ') :
    ∃ state', O.Consistent m init σ' state' := by
  cases hstep with
  | @lock call hcall hfree =>
      cases hspec : O.spec (state (O.index call)) call with
      | none => exact ⟨state, h.lock_abort hlaw hcall hfree hspec⟩
      | some out => exact ⟨_, h.lock_return hlaw hcall hfree hspec⟩
  | act hheld => exact ⟨state, h.act hheld⟩
  | unlock hheld => exact ⟨state, h.unlock hheld⟩

theorem consistent_steps (hlaw : O.Lawful) (hinit : ∀ i, O.Rep i (init i) m)
    (hsteps : Relation.ReflTransGen O.Step (Locked.start m) σ) :
    ∃ state, O.Consistent m init σ state := by
  induction hsteps with
  | refl => exact ⟨init, consistent_start hinit⟩
  | tail _ hstep ih =>
      obtain ⟨state, h⟩ := ih
      exact h.step hlaw hstep

/-- Whatever the threads do, the answers are those of the calls made one after the other, in the order
in which they got their locks, and an object that no call is under way on is in the state that these
leave it in. -/
theorem linearizable (hlaw : O.Lawful) (hinit : ∀ i, O.Rep i (init i) m)
    (hsteps : Relation.ReflTransGen O.Step (Locked.start m) σ) :
    ∃ state, runAll O.specAll init (σ.begun.map Prod.fst) = some (σ.begun.map Prod.snd, state) ∧
      ∀ i, σ.held i = none → O.Rep i (state i) σ.mem := by
  obtain ⟨state, h⟩ := consistent_steps hlaw hinit hsteps
  exact ⟨state, h.specs, fun i hidle => h.rep hlaw hidle⟩

/-- When all threads die, every object is torn, or in the state behind its last call that returned, or
in that behind the one under way. -/
theorem crash_atomic (hlaw : O.Lawful) (hinit : ∀ i, O.Rep i (init i) m)
    (hsteps : Relation.ReflTransGen O.Step (Locked.start m) σ) (hd : DurableAmong m σ.log d) (i : ι) :
    O.Torn i d ∨ ∃ calls answers a, (calls = O.finished σ i ∨ calls = O.own σ i) ∧
      runAll O.spec (init i) calls = some (answers, a) ∧ O.Rep i a d := by
  obtain ⟨state, h⟩ := consistent_steps hlaw hinit hsteps
  obtain ⟨answers, hown⟩ := runAll_own h.specs i
  obtain ⟨kept, hkept, hwindow⟩ := hd.window fun x hx hne => (h.inside x hx).2 i (Ne.symm hne)
  have hfixed : d.Agree (replay m kept) O.fixedLo O.fixedHi :=
    (hd.frame fun x hx => (h.inside x hx).1).symm.trans
      (replay_agree fun e he => (h.inside _ (mem_eventsOf (hkept.1.subset he))).1)
  have hsame : O.Same i (replay m kept) d := ⟨hwindow.symm, hfixed.symm⟩
  have hdurable : Durable m (eventsOf i σ.log) (replay m kept) :=
    durable_iff_kept.2 ⟨kept, hkept, rfl⟩
  cases hheld : σ.held i with
  | none =>
      obtain ⟨hended, hrep⟩ := (h.object i).idle hheld
      rw [← hended.durable hdurable] at hrep
      exact Or.inr ⟨_, answers, state i, Or.inr rfl, hown, hlaw.rep_same hrep hsame⟩
  | some job =>
      obtain ⟨-, done, part, a₁, answers₁, hlog, hended, -, hrun, hcrash, -⟩ :=
        (h.object i).busy job hheld
      rw [hlog] at hdurable
      rcases hcrash _ ⟨part, List.prefix_append part job.rest, hended.durable_append hdurable⟩ with
        hrep | htorn | hrep
      · exact Or.inr ⟨_, answers₁, a₁, Or.inl rfl, hrun, hlaw.rep_same hrep hsame⟩
      · exact Or.inl (hlaw.torn_same htorn hsame)
      · exact Or.inr ⟨_, answers, state i, Or.inr rfl, hown, hlaw.rep_same hrep hsame⟩

/-- What all objects read is left alone. -/
theorem crash_fixed (hlaw : O.Lawful) (hinit : ∀ i, O.Rep i (init i) m)
    (hsteps : Relation.ReflTransGen O.Step (Locked.start m) σ) (hd : DurableAmong m σ.log d) :
    m.Agree d O.fixedLo O.fixedHi := by
  obtain ⟨state, h⟩ := consistent_steps hlaw hinit hsteps
  exact hd.frame fun x hx => (h.inside x hx).1

end Objects

end ByteMachine
