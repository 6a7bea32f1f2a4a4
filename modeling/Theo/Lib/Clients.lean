import Theo.Lib.Objects

set_option autoImplicit false

/-! # Clients of objects behind locks

Clients run side by side. A client takes steps of its own and calls objects: a call gets the lock of its
object, stores one event after the other while the other clients go on, and gives the lock back when it
returns (`Program.Step`). Where the objects are lawful, the clients could have done the same with each
call in a single step on the states of the objects (`Crew.refines`). And as long as no call aborts, a
client at a call waits for nothing but a client that can go on (`Crew.Owned.goes_on`). -/

namespace ByteMachine

/-- What clients do. -/
structure Program (Client Call Answer Shown : Type) where
  /-- A step of its own, and what it shows. -/
  Alone : Client → Shown → Client → Prop
  /-- The call that a client is at. -/
  asks : Client → Option Call
  /-- How a client goes on with the answer. -/
  resume : Client → Answer → Client

/-- Clients that share objects, and the calls under way with the answers that they will return, if they
return. -/
structure Crew (κ ι τ Client Call Answer Shown : Type) where
  clients : κ → Client
  calling : κ → Option (Call × Option Answer)
  locked : Locked ι τ Call Answer
  shown : List Shown

/-- The same clients on the states of the objects. -/
structure Clients (κ ι Client Call Answer State Shown : Type) where
  clients : κ → Client
  state : ι → State
  begun : List (Call × Answer)
  shown : List Shown

section

variable {κ ι τ Client Call Answer State Shown : Type}

def Crew.start (clients : κ → Client) (m : Mem) : Crew κ ι τ Client Call Answer Shown :=
  ⟨clients, fun _ => none, Locked.start m, []⟩

def Clients.start (clients : κ → Client) (init : ι → State) :
    Clients κ ι Client Call Answer State Shown := ⟨clients, init, [], []⟩

/-- The client as the call under way, if there is one, will leave it. -/
def Program.ahead (P : Program Client Call Answer Shown) (client : Client) :
    Option (Call × Option Answer) → Client
  | some (_, some answer) => P.resume client answer
  | _ => client

section

variable (P : Program Client Call Answer Shown) (client : Client) (call : Call) (answer : Answer)

@[simp] theorem Program.ahead_idle : P.ahead client none = client := rfl

@[simp] theorem Program.ahead_abort : P.ahead client (some (call, none)) = client := rfl

@[simp] theorem Program.ahead_return :
    P.ahead client (some (call, some answer)) = P.resume client answer := rfl

end

variable [DecidableEq κ] [DecidableEq ι]

/-- A call that gets its lock. -/
def Objects.enter (O : Objects ι τ Call Answer State) (call : Call) (σ : Locked ι τ Call Answer) :
    Locked ι τ Call Answer :=
  (σ.begin call (O.run call σ.mem).2).hold (O.index call)
    (some ⟨(O.run call σ.mem).1, (O.run call σ.mem).2.isSome⟩)

/-- One step of some client. -/
inductive Program.Step (P : Program Client Call Answer Shown) (O : Objects ι τ Call Answer State) :
    Crew κ ι τ Client Call Answer Shown → Crew κ ι τ Client Call Answer Shown → Prop
  | alone {x i shown client} (hidle : x.calling i = none) (h : P.Alone (x.clients i) shown client) :
      Step P O x ⟨Function.update x.clients i client, x.calling, x.locked, x.shown ++ [shown]⟩
  | call {x i call} (hidle : x.calling i = none) (hasks : P.asks (x.clients i) = some call)
      (hfree : x.locked.held (O.index call) = none) :
      Step P O x ⟨x.clients,
        Function.update x.calling i (some (call, (O.run call x.locked.mem).2)),
        O.enter call x.locked, x.shown⟩
  | act {x j e rest returns} (hheld : x.locked.held j = some ⟨e :: rest, returns⟩) :
      Step P O x ⟨x.clients, x.calling, (x.locked.issue j e).hold j (some ⟨rest, returns⟩), x.shown⟩
  | resume {x i call answer} (hcalling : x.calling i = some (call, some answer))
      (hheld : x.locked.held (O.index call) = some ⟨[], true⟩) :
      Step P O x ⟨Function.update x.clients i (P.resume (x.clients i) answer),
        Function.update x.calling i none, x.locked.hold (O.index call) none, x.shown⟩

/-- One step of some client where each call is a single step. -/
inductive Program.Atomic (P : Program Client Call Answer Shown)
    (O : Objects ι τ Call Answer State) : Clients κ ι Client Call Answer State Shown →
      Clients κ ι Client Call Answer State Shown → Prop
  | alone {y i shown client} (h : P.Alone (y.clients i) shown client) :
      Atomic P O y ⟨Function.update y.clients i client, y.state, y.begun, y.shown ++ [shown]⟩
  | call {y i call answer state} (hasks : P.asks (y.clients i) = some call)
      (hspec : O.specAll y.state call = some (answer, state)) :
      Atomic P O y ⟨Function.update y.clients i (P.resume (y.clients i) answer), state,
        y.begun ++ [(call, answer)], y.shown⟩

variable {P : Program Client Call Answer Shown} {O : Objects ι τ Call Answer State}
  {x x' : Crew κ ι τ Client Call Answer Shown} {y : Clients κ ι Client Call Answer State Shown}
  {clients : κ → Client} {m : Mem} {init : ι → State} {i : κ} {call : Call}

/-! ## Who holds the locks -/

/-- Each lock that is held is held for one call under way. -/
structure Crew.Owned (P : Program Client Call Answer Shown) (O : Objects ι τ Call Answer State)
    (x : Crew κ ι τ Client Call Answer Shown) : Prop where
  asks : ∀ {i call answer}, x.calling i = some (call, answer) → P.asks (x.clients i) = some call
  holds : ∀ {i call answer}, x.calling i = some (call, answer) →
    ∃ rest, x.locked.held (O.index call) = some ⟨rest, answer.isSome⟩
  owner : ∀ {j}, x.locked.held j ≠ none → ∃ i call answer, x.calling i = some (call, answer) ∧
    O.index call = j
  alone : ∀ {i i' call call' answer answer'}, x.calling i = some (call, answer) →
    x.calling i' = some (call', answer') → O.index call = O.index call' → i = i'

omit [DecidableEq ι] in
/-- The calls under way once client `i` has begun one or ended one. -/
theorem calling_update {calling : κ → Option (Call × Option Answer)}
    {under : Option (Call × Option Answer)} {i' : κ} {answer : Option Answer}
    (h : Function.update calling i under i' = some (call, answer)) :
    (i' = i ∧ under = some (call, answer)) ∨ (i' ≠ i ∧ calling i' = some (call, answer)) := by
  by_cases hi : i' = i
  · subst hi
    rw [Function.update_self] at h
    exact Or.inl ⟨rfl, h⟩
  · rw [Function.update_of_ne hi] at h
    exact Or.inr ⟨hi, h⟩

omit [DecidableEq κ] [DecidableEq ι] in
/-- The calls under way are on other objects than one whose lock is free. -/
theorem Crew.Owned.elsewhere (h : x.Owned P O) {call' : Call} {answer : Option Answer}
    (hfree : x.locked.held (O.index call) = none) (hcalling : x.calling i = some (call', answer)) :
    O.index call' ≠ O.index call := by
  intro hindex
  obtain ⟨rest, hheld⟩ := h.holds hcalling
  rw [hindex, hfree] at hheld
  cases hheld

/-- A call gets its lock. -/
theorem Crew.Owned.enter (h : x.Owned P O) (hidle : x.calling i = none)
    (hasks : P.asks (x.clients i) = some call) (hfree : x.locked.held (O.index call) = none) :
    Crew.Owned P O ⟨x.clients, Function.update x.calling i (some (call, (O.run call x.locked.mem).2)),
      O.enter call x.locked, x.shown⟩ := by
  -- it is the only call under way on its object
  have hcases : ∀ {i' call' answer}, Function.update x.calling i
      (some (call, (O.run call x.locked.mem).2)) i' = some (call', answer) →
      (i' = i ∧ call = call' ∧ (O.run call x.locked.mem).2 = answer) ∨
        (x.calling i' = some (call', answer) ∧ O.index call' ≠ O.index call) := by
    intro i' call' answer hcalling
    rcases calling_update hcalling with ⟨rfl, hunder⟩ | ⟨-, hold⟩
    · rw [Option.some.injEq, Prod.mk.injEq] at hunder
      exact Or.inl ⟨rfl, hunder⟩
    · exact Or.inr ⟨hold, h.elsewhere hfree hold⟩
  refine ⟨fun hcalling => ?_, fun hcalling => ?_, fun {j} hne => ?_,
    fun hcalling hcalling' hindex => ?_⟩
  · rcases hcases hcalling with ⟨rfl, rfl, -⟩ | ⟨hold, -⟩
    · exact hasks
    · exact h.asks hold
  · rcases hcases hcalling with ⟨rfl, rfl, rfl⟩ | ⟨hold, hindex⟩
    · exact ⟨_, Locked.hold_self _ _ _⟩
    · obtain ⟨rest, hheld⟩ := h.holds hold
      exact ⟨rest, (Locked.hold_other _ hindex _).trans hheld⟩
  · by_cases hj : j = O.index call
    · exact ⟨i, call, _, Function.update_self _ _ _, hj.symm⟩
    · obtain ⟨i', call', answer, hcalling, hindex⟩ :=
        h.owner ((Locked.hold_other (σ := x.locked) hj _).symm ▸ hne)
      have hi : i' ≠ i := by
        rintro rfl
        rw [hidle] at hcalling
        cases hcalling
      exact ⟨i', call', answer, (Function.update_of_ne hi _ _).trans hcalling, hindex⟩
  · rcases hcases hcalling with ⟨rfl, rfl, -⟩ | ⟨hold, hother⟩
    · rcases hcases hcalling' with ⟨rfl, -, -⟩ | ⟨-, hother⟩
      · rfl
      · exact absurd hindex.symm hother
    · rcases hcases hcalling' with ⟨-, rfl, -⟩ | ⟨hold', -⟩
      · exact absurd hindex hother
      · exact h.alone hold hold' hindex

/-- A call gives its lock back. -/
theorem Crew.Owned.leave (h : x.Owned P O) {answer : Option Answer}
    (hcalling : x.calling i = some (call, answer)) (client : Client) :
    Crew.Owned P O ⟨Function.update x.clients i client, Function.update x.calling i none,
      x.locked.hold (O.index call) none, x.shown⟩ := by
  have hcases : ∀ {i' call' answer'}, Function.update x.calling i none i' = some (call', answer') →
      i' ≠ i ∧ x.calling i' = some (call', answer') := by
    intro i' call' answer' hcalling'
    rcases calling_update hcalling' with ⟨-, hunder⟩ | hold
    · cases hunder
    · exact hold
  refine ⟨fun {i' call' answer'} hcalling' => ?_, fun hcalling' => ?_, fun {j} hne => ?_,
    fun hcalling' hcalling'' => h.alone (hcases hcalling').2 (hcases hcalling'').2⟩
  · obtain ⟨hi, hold⟩ := hcases hcalling'
    show P.asks (Function.update x.clients i _ i') = some call'
    rw [Function.update_of_ne hi]
    exact h.asks hold
  · obtain ⟨hi, hold⟩ := hcases hcalling'
    obtain ⟨rest, hheld'⟩ := h.holds hold
    exact ⟨rest, (Locked.hold_other _ (fun hindex => hi (h.alone hold hcalling hindex)) _).trans
      hheld'⟩
  · have hj : j ≠ O.index call := by
      rintro rfl
      exact hne (Locked.hold_self _ _ _)
    obtain ⟨i', call', answer', hold, hindex⟩ :=
      h.owner ((Locked.hold_other (σ := x.locked) hj _).symm ▸ hne)
    have hi : i' ≠ i := by
      rintro rfl
      rw [hcalling, Option.some.injEq, Prod.mk.injEq] at hold
      exact hj (hold.1 ▸ hindex.symm)
    exact ⟨i', call', answer', (Function.update_of_ne hi _ _).trans hold, hindex⟩

theorem Crew.Owned.step (h : x.Owned P O) (hstep : P.Step O x x') : x'.Owned P O := by
  cases hstep with
  | @alone i shown client hidle halone =>
      refine ⟨fun {i' call answer} hcalling => ?_, h.holds, h.owner, h.alone⟩
      have hne : i' ≠ i := by
        rintro rfl
        rw [hidle] at hcalling
        cases hcalling
      show P.asks (Function.update x.clients i client i') = some call
      rw [Function.update_of_ne hne]
      exact h.asks hcalling
  | call hidle hasks hfree => exact h.enter hidle hasks hfree
  | @act j e rest returns hheld =>
      refine ⟨h.asks, fun {i call answer} hcalling => ?_, fun {j'} hne => ?_, h.alone⟩
      · obtain ⟨rest', hheld'⟩ := h.holds hcalling
        by_cases hj : O.index call = j
        · rw [hj, hheld, Option.some.injEq, Job.mk.injEq] at hheld'
          refine ⟨rest, ?_⟩
          rw [hj, Locked.hold_self, hheld'.2]
        · exact ⟨rest', (Locked.hold_other _ hj _).trans hheld'⟩
      · by_cases hj : j' = j
        · exact h.owner (hj ▸ hheld ▸ Option.some_ne_none _)
        · exact h.owner ((Locked.hold_other _ hj _).symm ▸ hne)
  | resume hcalling hheld => exact h.leave hcalling _

theorem Crew.Owned.steps (hsteps : Relation.ReflTransGen (P.Step O) (Crew.start clients m) x) :
    x.Owned P O := by
  induction hsteps with
  | refl =>
      refine ⟨fun h => ?_, fun h => ?_, fun h => absurd rfl h, fun h => ?_⟩
      all_goals cases h
  | tail _ hstep ih => exact ih.step hstep

/-- A call under way that will return goes on, and what its lock is held for changes. -/
theorem Crew.Owned.runs (h : x.Owned P O) {answer : Answer}
    (hcalling : x.calling i = some (call, some answer)) :
    ∃ x', P.Step O x x' ∧ x'.locked.held (O.index call) ≠ x.locked.held (O.index call) := by
  obtain ⟨rest, hheld⟩ := h.holds hcalling
  cases rest with
  | nil =>
      refine ⟨_, .resume hcalling hheld, ?_⟩
      show (x.locked.hold (O.index call) none).held (O.index call) ≠ _
      rw [Locked.hold_self, hheld]
      exact (Option.some_ne_none _).symm
  | cons e rest =>
      refine ⟨_, .act hheld, ?_⟩
      show ((x.locked.issue _ e).hold (O.index call) (some ⟨rest, _⟩)).held (O.index call) ≠ _
      rw [Locked.hold_self, hheld]
      intro heq
      exact List.cons_ne_self e rest (Job.mk.inj (Option.some.inj heq)).1.symm

/-- As long as no call aborts, a client that is at a call waits for nothing but steps on the object of
that call: it can go on, or the client that holds the lock can. -/
theorem Crew.Owned.goes_on (h : x.Owned P O) (hreturns : ∀ i call, x.calling i ≠ some (call, none))
    (hasks : P.asks (x.clients i) = some call) :
    ∃ x', P.Step O x x' ∧ x'.locked.held (O.index call) ≠ x.locked.held (O.index call) := by
  have hruns : ∀ {i call answer}, x.calling i = some (call, answer) →
      ∃ x', P.Step O x x' ∧ x'.locked.held (O.index call) ≠ x.locked.held (O.index call) := by
    intro i call answer hcalling
    cases answer with
    | none => exact absurd hcalling (hreturns i call)
    | some answer => exact h.runs hcalling
  cases hcalling : x.calling i with
  | some under =>
      obtain ⟨call', answer⟩ := under
      obtain rfl := Option.some.inj ((h.asks hcalling).symm.trans hasks)
      exact hruns hcalling
  | none =>
      by_cases hfree : x.locked.held (O.index call) = none
      · refine ⟨_, .call hcalling hasks hfree, ?_⟩
        show (Locked.hold _ (O.index call) (some _)).held (O.index call) ≠ _
        rw [Locked.hold_self, hfree]
        exact Option.some_ne_none _
      · obtain ⟨i', call', answer, hother, hindex⟩ := h.owner hfree
        rw [← hindex]
        exact hruns hother

/-! ## Calls in single steps -/

/-- The clients `x`, which started on `m`, have got as far as `y`, where the calls under way are done. -/
structure Crew.Refines (P : Program Client Call Answer Shown) (O : Objects ι τ Call Answer State)
    (m : Mem) (init : ι → State) (x : Crew κ ι τ Client Call Answer Shown)
    (y : Clients κ ι Client Call Answer State Shown) : Prop where
  objects : O.Consistent m init x.locked y.state
  clients : ∀ i, y.clients i = P.ahead (x.clients i) (x.calling i)
  begun : y.begun = x.locked.begun
  shown : y.shown = x.shown
  /-- A call that will not return has its object to itself. -/
  aborts : ∀ i call, x.calling i = some (call, none) → O.spec (y.state (O.index call)) call = none

omit [DecidableEq ι] in
/-- A step of client `i` leaves the others where they are. -/
theorem ahead_update {clients clients' : κ → Client} {calling calling' : κ → Option (Call × Option Answer)}
    {client : Client} (hclients : ∀ j, j ≠ i → clients' j = clients j)
    (hcalling : ∀ j, j ≠ i → calling' j = calling j) (hi : P.ahead (clients' i) (calling' i) = client)
    (j : κ) : Function.update (fun j => P.ahead (clients j) (calling j)) i client j =
      P.ahead (clients' j) (calling' j) := by
  by_cases hj : j = i
  · subst hj
    rw [Function.update_self, hi]
  · rw [Function.update_of_ne hj, hclients j hj, hcalling j hj]

omit [DecidableEq ι] in
theorem ahead_same {clients clients' : κ → Client} {calling calling' : κ → Option (Call × Option Answer)}
    (hclients : ∀ j, j ≠ i → clients' j = clients j) (hcalling : ∀ j, j ≠ i → calling' j = calling j)
    (hi : P.ahead (clients' i) (calling' i) = P.ahead (clients i) (calling i)) (j : κ) :
    P.ahead (clients j) (calling j) = P.ahead (clients' j) (calling' j) := by
  have hupdate := ahead_update hclients hcalling hi j
  rwa [Function.update_eq_self] at hupdate

/-- A call that will abort gets its lock. The client stays where it is. -/
theorem Crew.Refines.enter_abort (h : x.Refines P O m init y) (hlaw : O.Lawful)
    (hidle : x.calling i = none) (hcall : O.Allowed call) (hfree : x.locked.held (O.index call) = none)
    (hspec : O.spec (y.state (O.index call)) call = none) :
    Crew.Refines P O m init ⟨x.clients,
      Function.update x.calling i (some (call, (O.run call x.locked.mem).2)),
      O.enter call x.locked, x.shown⟩ y := by
  have hrep := h.objects.rep hlaw hfree
  obtain ⟨hnone, -⟩ := hlaw.aborts hcall hrep hspec
  refine ⟨h.objects.lock_abort hlaw hcall hfree hspec, fun j => ?_, ?_, h.shown,
    fun j call' hcalling => ?_⟩
  · rw [h.clients]
    refine ahead_same (fun _ _ => rfl) (fun j hj => Function.update_of_ne hj _ _) ?_ j
    show P.ahead _ (Function.update x.calling i _ i) = _
    rw [Function.update_self, hnone, hidle, Program.ahead_abort, Program.ahead_idle]
  · rw [h.begun, hnone, Objects.enter, hnone]
    exact (List.append_nil _).symm
  · rcases calling_update hcalling with ⟨rfl, hunder⟩ | ⟨-, hold⟩
    · rw [Option.some.injEq, Prod.mk.injEq] at hunder
      rw [← hunder.1]
      exact hspec
    · exact h.aborts j call' hold

/-- A call that will return gets its lock: on the states it is done. -/
theorem Crew.Refines.enter_return (h : x.Refines P O m init y) (howned : x.Owned P O) (hlaw : O.Lawful)
    (hidle : x.calling i = none) (hcall : O.Allowed call) (hfree : x.locked.held (O.index call) = none)
    {answer : Answer} {a : State} (hspec : O.spec (y.state (O.index call)) call = some (answer, a)) :
    Crew.Refines P O m init ⟨x.clients,
        Function.update x.calling i (some (call, (O.run call x.locked.mem).2)),
        O.enter call x.locked, x.shown⟩
      ⟨Function.update y.clients i (P.resume (y.clients i) answer),
        Function.update y.state (O.index call) a, y.begun ++ [(call, answer)], y.shown⟩ := by
  obtain ⟨hsome, -⟩ := hlaw.returns hcall (h.objects.rep hlaw hfree) hspec
  refine ⟨h.objects.lock_return hlaw hcall hfree hspec, ?_, ?_, h.shown,
    fun j call' hcalling => ?_⟩
  · rw [show y.clients = fun j => P.ahead (x.clients j) (x.calling j) from funext h.clients]
    refine ahead_update (fun _ _ => rfl) (fun j hj => Function.update_of_ne hj _ _) ?_
    show P.ahead _ (Function.update x.calling i _ i) = _
    rw [Function.update_self, hsome, Program.ahead_return]
    show _ = P.resume (P.ahead (x.clients i) (x.calling i)) answer
    rw [hidle, Program.ahead_idle]
  · rw [Objects.enter, hsome, h.begun]
    rfl
  · rcases calling_update hcalling with ⟨rfl, hunder⟩ | ⟨-, hold⟩
    · rw [hsome, Option.some.injEq, Prod.mk.injEq] at hunder
      cases hunder.2
    · have hindex := howned.elsewhere hfree hold
      show O.spec (Function.update y.state (O.index call) a (O.index call')) call' = none
      rw [Function.update_of_ne hindex]
      exact h.aborts j call' hold

/-- A call that is done returns. -/
theorem Crew.Refines.leave (h : x.Refines P O m init y) {answer : Answer}
    (hcalling : x.calling i = some (call, some answer))
    (hheld : x.locked.held (O.index call) = some ⟨[], true⟩) :
    Crew.Refines P O m init ⟨Function.update x.clients i (P.resume (x.clients i) answer),
      Function.update x.calling i none, x.locked.hold (O.index call) none, x.shown⟩ y := by
  refine ⟨h.objects.unlock hheld, fun j => ?_, h.begun, h.shown, fun j call' hcalling' => ?_⟩
  · rw [h.clients]
    refine ahead_same (fun j hj => Function.update_of_ne hj _ _)
      (fun j hj => Function.update_of_ne hj _ _) ?_ j
    show P.ahead (Function.update x.clients i _ i) (Function.update x.calling i none i) = _
    rw [Function.update_self, Function.update_self, hcalling, Program.ahead_idle,
      Program.ahead_return]
  · rcases calling_update hcalling' with ⟨-, hunder⟩ | ⟨-, hold⟩
    · cases hunder
    · exact h.aborts j call' hold

/-- A step of a client is a step or none where calls are single steps. -/
theorem Crew.Refines.step (h : x.Refines P O m init y) (howned : x.Owned P O) (hlaw : O.Lawful)
    (hallowed : ∀ i call, P.asks (y.clients i) = some call → O.Allowed call)
    (hstep : P.Step O x x') : ∃ y', (y' = y ∨ P.Atomic O y y') ∧ x'.Refines P O m init y' := by
  have hahead : ∀ {i}, x.calling i = none → y.clients i = x.clients i := by
    intro i hidle
    rw [h.clients, hidle, Program.ahead_idle]
  cases hstep with
  | @alone i shown client hidle halone =>
      refine ⟨_, Or.inr (.alone (i := i) (hahead hidle ▸ halone)), h.objects, ?_, h.begun, ?_, h.aborts⟩
      · rw [show y.clients = fun j => P.ahead (x.clients j) (x.calling j) from funext h.clients]
        refine ahead_update (fun j hj => Function.update_of_ne hj _ _) (fun _ _ => rfl) ?_
        show P.ahead (Function.update x.clients i client i) (x.calling i) = client
        rw [Function.update_self, hidle, Program.ahead_idle]
      · show y.shown ++ [shown] = x.shown ++ [shown]
        rw [h.shown]
  | @call i call hidle hasks hfree =>
      rw [← hahead hidle] at hasks
      have hcall := hallowed i call hasks
      cases hspec : O.spec (y.state (O.index call)) call with
      | none => exact ⟨y, Or.inl rfl, h.enter_abort hlaw hidle hcall hfree hspec⟩
      | some out =>
          have hcallAll : O.specAll y.state call =
              some (out.1, Function.update y.state (O.index call) out.2) := by
            rw [Objects.specAll, hspec]
            rfl
          exact ⟨_, Or.inr (.call hasks hcallAll),
            h.enter_return howned hlaw hidle hcall hfree hspec⟩
  | act hheld => exact ⟨y, Or.inl rfl, h.objects.act hheld, h.clients, h.begun, h.shown, h.aborts⟩
  | resume hcalling hheld => exact ⟨y, Or.inl rfl, h.leave hcalling hheld⟩

/-- Whatever clients of lawful objects do, they could have done it with each call in a single step. -/
theorem Crew.refines (hlaw : O.Lawful) (hinit : ∀ j, O.Rep j (init j) m)
    (hallowed : ∀ y, Relation.ReflTransGen (P.Atomic O) (Clients.start clients init) y →
      ∀ i call, P.asks (y.clients i) = some call → O.Allowed call)
    (hsteps : Relation.ReflTransGen (P.Step O) (Crew.start clients m) x) :
    ∃ y, Relation.ReflTransGen (P.Atomic O) (Clients.start clients init) y ∧
      x.Refines P O m init y := by
  induction hsteps with
  | refl =>
      exact ⟨_, .refl, Objects.consistent_start hinit, fun _ => rfl, rfl, rfl, fun i call h => by cases h⟩
  | tail hsteps hstep ih =>
      obtain ⟨y, hrun, h⟩ := ih
      obtain ⟨y', hnext, h'⟩ := h.step (Crew.Owned.steps hsteps) hlaw (hallowed y hrun) hstep
      rcases hnext with rfl | hnext
      · exact ⟨y', hrun, h'⟩
      · exact ⟨y', hrun.tail hnext, h'⟩

end

end ByteMachine
