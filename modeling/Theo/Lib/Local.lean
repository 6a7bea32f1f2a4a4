import Theo.Lib.Machine

set_option autoImplicit false

/-! # Programs that depend on a part of memory only

`Local lo hi Q P x`: where `P` holds of the memory, a run of `x` that returns after events that all
satisfy `Q` does the same on every memory with the same bytes from `lo` up to `hi`. What a program
reads may be known to lie in that part only because of something it does later, which is why the
events of the whole run may be assumed. Locality composes along sequencing. -/

namespace ByteMachine

variable {ε τ α β : Type} {lo hi : Nat} {Q : Event τ → Prop} {P P' : Mem → Prop}

/-- The machine after further events. -/
def Machine.after (s : Machine τ) (es : List (Event τ)) : Machine τ :=
  ⟨replay s.mem es, s.log ++ es⟩

/-- The machine that a program leaves, whether it returns or not. -/
def final : EStateM.Result ε (Machine τ) α → Machine τ
  | .ok _ s => s
  | .error _ s => s

theorem Machine.after_nil (s : Machine τ) : s.after [] = s := by
  rw [after, List.append_nil]
  rfl

theorem Machine.after_append (s : Machine τ) (es es' : List (Event τ)) :
    (s.after es).after es' = s.after (es ++ es') := by
  simp only [after, replay, List.foldl_append, List.append_assoc]

theorem Machine.after_inj {s : Machine τ} {es es' : List (Event τ)} (h : s.after es = s.after es') :
    es = es' := List.append_cancel_left (congrArg Machine.log h)

theorem Machine.emit_after (s : Machine τ) (e : Event τ) : s.emit e = s.after [e] := rfl

theorem Machine.store32_after (s : Machine τ) (site : τ) (addr v : Nat) :
    s.store32 site addr v = s.after [.store site addr (Mem.bytes32 v)] := rfl

theorem Machine.storeBits_after (s : Machine τ) (site : τ) (addr w n v : Nat) :
    s.storeBits site addr w n v =
      s.after [.store site addr (Mem.bytes32 (setBits (s.mem.load32 addr) w n v))] := rfl

/-- The stores of a block of bytes. -/
def byteStores (site : τ) : Nat → List UInt8 → List (Event τ)
  | _, [] => []
  | addr, b :: bytes => .store site addr [b] :: byteStores site (addr + 1) bytes

theorem byteStores_append (site : τ) (addr : Nat) (bytes bytes' : List UInt8) :
    byteStores site addr (bytes ++ bytes') =
      byteStores site addr bytes ++ byteStores site (addr + bytes.length) bytes' := by
  induction bytes generalizing addr with
  | nil => rfl
  | cons b bytes ih =>
      rw [List.cons_append, byteStores, byteStores, ih, List.cons_append, List.length_cons,
        Nat.add_assoc, Nat.add_comm 1]

theorem Machine.storeBytes_after (s : Machine τ) (site : τ) (addr : Nat) (bytes : List UInt8) :
    s.storeBytes site addr bytes = s.after (byteStores site addr bytes) := by
  induction bytes generalizing s addr with
  | nil => exact (Machine.after_nil s).symm
  | cons b bytes ih =>
      rw [Machine.storeBytes, ih, Machine.emit_after, Machine.after_append]
      rfl

theorem replay_byteStores (m : Mem) (site : τ) (addr : Nat) (bytes : List UInt8) :
    replay m (byteStores site addr bytes) = m.write addr bytes := by
  have hmem := Machine.mem_storeBytes ⟨m, []⟩ site addr bytes
  rwa [Machine.storeBytes_after] at hmem

theorem Emits.eq_after {s s' : Machine τ} (h : Emits Q s s') :
    ∃ es, s' = s.after es ∧ ∀ e ∈ es, Q e := by
  obtain ⟨es, hlog, hmem, hes⟩ := h
  cases s'
  cases hlog
  cases hmem
  exact ⟨es, rfl, hes⟩

/-- One event. -/
theorem Event.apply_agree {m : Mem} (e : Event τ) (h : e.Avoids lo hi) : m.Agree (e.apply m) lo hi := by
  have hone : ∀ e' ∈ [e], e'.Avoids lo hi := fun e' he' => List.mem_singleton.1 he' ▸ h
  exact replay_agree (m := m) hone

/-- The same store keeps that two memories agree. -/
theorem Event.apply_same {m m' : Mem} (h : m.Agree m' lo hi) (e : Event τ) :
    (e.apply m).Agree (e.apply m') lo hi := by
  cases e with
  | store site addr bytes =>
      intro a hlo hhi
      simp only [Event.apply, Mem.write]
      rw [h a hlo hhi]
  | barrier => exact h
  | mark note => exact h

theorem replay_same {m m' : Mem} (h : m.Agree m' lo hi) (es : List (Event τ)) :
    (replay m es).Agree (replay m' es) lo hi := by
  induction es generalizing m m' with
  | nil => exact h
  | cons e es ih => exact ih (e.apply_same h)

/-- A selection of events does the same where no other event stores. -/
theorem replay_filter {p : Event τ → Bool} {m m' : Mem} {es : List (Event τ)} (h : m.Agree m' lo hi)
    (hes : ∀ e ∈ es, p e = false → e.Avoids lo hi) :
    (replay m es).Agree (replay m' (es.filter p)) lo hi := by
  induction es generalizing m m' with
  | nil => exact h
  | cons e es ih =>
      obtain ⟨he, hes⟩ := List.forall_mem_cons.1 hes
      cases hp : p e with
      | true =>
          rw [List.filter_cons_of_pos hp]
          exact ih (e.apply_same h) hes
      | false =>
          rw [List.filter_cons_of_neg (Bool.eq_false_iff.1 hp)]
          exact ih ((e.apply_agree (he hp)).symm.trans h) hes

/-- Runs of events that store at different addresses commute. -/
theorem replay_comm {es es' : List (Event τ)} (m : Mem) (h : ∀ a, (∀ e ∈ es, e.Avoids a (a + 1)) ∨
    ∀ e ∈ es', e.Avoids a (a + 1)) : replay (replay m es) es' = replay (replay m es') es := by
  funext a
  have hin : ∀ {m m' : Mem}, m.Agree m' a (a + 1) → m' a = m a := fun hagree =>
    hagree a (Nat.le_refl a) (Nat.lt_succ_self a)
  rcases h a with hes | hes'
  · rw [hin (replay_agree hes), hin (replay_same (replay_agree hes) es')]
  · rw [hin (replay_agree hes'), hin (replay_same (replay_agree hes') es)]

structure Local (lo hi : Nat) (Q : Event τ → Prop) (P : Mem → Prop) (x : Prog ε τ α) : Prop where
  appends : ∀ s, ∃ es, final (x s) = s.after es
  same : ∀ {s s' : Machine τ} {a : α} {es : List (Event τ)}, P s.mem → s.mem.Agree s'.mem lo hi →
    x s = .ok a (s.after es) → (∀ e ∈ es, Q e) → x s' = .ok a (s'.after es)

namespace Local

/-- A program that does one thing. -/
theorem of_events {x : Prog ε τ α} {f : Mem → α} {g : Mem → List (Event τ)}
    (hx : ∀ s, x s = .ok (f s.mem) (s.after (g s.mem)))
    (hsame : ∀ {m m'}, P m → (∀ e ∈ g m, Q e) → m.Agree m' lo hi → f m' = f m ∧ g m' = g m) :
    Local lo hi Q P x where
  appends s := ⟨g s.mem, by rw [hx]; rfl⟩
  same := by
    intro s s' a es hP hagree hrun hes
    rw [hx, EStateM.Result.ok.injEq] at hrun
    obtain ⟨rfl, hafter⟩ := hrun
    have heq := Machine.after_inj hafter
    subst heq
    obtain ⟨hf, hg⟩ := hsame hP hes hagree
    rw [hx, hf, hg]

theorem weaken {x : Prog ε τ α} (h : Local lo hi Q P x) (hP : ∀ m, P' m → P m) :
    Local lo hi Q P' x := ⟨h.appends, fun hP' => h.same (hP _ hP')⟩

/-- What is assumed may follow from the run itself. -/
theorem of_run {x : Prog ε τ α} (h : Local lo hi Q P x)
    (hP : ∀ {s a es}, P' s.mem → x s = .ok a (s.after es) → (∀ e ∈ es, Q e) → P s.mem) :
    Local lo hi Q P' x :=
  ⟨h.appends, fun hP' hagree hrun hes => h.same (hP hP' hrun hes) hagree hrun hes⟩

/-- A run in sequence that returned, in its two parts. -/
theorem split {x : Prog ε τ α} {f : α → Prog ε τ β} {R : α → Mem → Prop} (hx : Local lo hi Q P x)
    (hf : ∀ a, Local lo hi Q (R a) (f a)) {s : Machine τ} {b : β} {es : List (Event τ)}
    (hrun : (x >>= f) s = .ok b (s.after es)) : ∃ a es₁ es₂, es = es₁ ++ es₂ ∧
      x s = .ok a (s.after es₁) ∧ f a (s.after es₁) = .ok b ((s.after es₁).after es₂) := by
  obtain ⟨a, s₁, hx₁, hf₁⟩ := of_bind_ok hrun
  obtain ⟨es₁, hes₁⟩ := hx.appends s
  rw [hx₁] at hes₁
  have hs₁ : s₁ = s.after es₁ := hes₁
  subst hs₁
  obtain ⟨es₂, hes₂⟩ := (hf a).appends (s.after es₁)
  rw [hf₁] at hes₂
  have hsplit : es = es₁ ++ es₂ :=
    Machine.after_inj ((show s.after es = _ from hes₂).trans (Machine.after_append _ _ _))
  refine ⟨a, es₁, es₂, hsplit, hx₁, ?_⟩
  rw [hf₁, hsplit, Machine.after_append]

/-- In sequence, where the second program may rely on what is known behind the first. -/
theorem bind {x : Prog ε τ α} {f : α → Prog ε τ β} {R : α → Mem → Prop} (hx : Local lo hi Q P x)
    (hR : ∀ {s a es}, P s.mem → x s = .ok a (s.after es) → (∀ e ∈ es, Q e) → R a (replay s.mem es))
    (hf : ∀ a, Local lo hi Q (R a) (f a)) : Local lo hi Q P (x >>= f) where
  appends := by
    intro s
    obtain ⟨es, hes⟩ := hx.appends s
    cases hrun : x s with
    | error e s' =>
        rw [hrun] at hes
        exact ⟨es, by rw [bind_error hrun]; exact hes⟩
    | ok a s' =>
        rw [hrun] at hes
        obtain ⟨es', hes'⟩ := (hf a).appends s'
        refine ⟨es ++ es', ?_⟩
        rw [bind_ok hrun, hes', show s' = _ from hes, Machine.after_append]
  same := by
    intro s s' b es hP hagree hrun hes
    obtain ⟨a, es₁, es₂, rfl, hx₁, hf₁⟩ := hx.split hf hrun
    have hes' := List.forall_mem_append.1 hes
    rw [bind_ok (hx.same hP hagree hx₁ hes'.1), ← Machine.after_append]
    exact (hf a).same (hR hP hx₁ hes'.1) (replay_same hagree es₁) hf₁ hes'.2

theorem seq {x : Prog ε τ α} {f : α → Prog ε τ β} (hx : Local lo hi Q P x)
    (hf : ∀ a, Local lo hi Q (fun _ => True) (f a)) : Local lo hi Q P (x >>= f) :=
  hx.bind (fun _ _ _ => trivial) hf

/-- In sequence, where what is assumed does not depend on the memory. -/
theorem keep {p : Prop} {x : Prog ε τ α} {f : α → Prog ε τ β} (hx : Local lo hi Q (fun _ => p) x)
    (hf : ∀ a, Local lo hi Q (fun _ => p) (f a)) : Local lo hi Q (fun _ => p) (x >>= f) :=
  hx.bind (fun hp _ _ => hp) hf

theorem pure (a : α) : Local lo hi Q P (Pure.pure a : Prog ε τ α) :=
  of_events (f := fun _ => a) (g := fun _ => []) (fun s => by rw [Machine.after_nil]; rfl)
    fun _ _ _ => ⟨rfl, rfl⟩

/-- A program that aborts. -/
theorem throw (e : ε) : Local lo hi Q P (MonadExcept.throw e : Prog ε τ α) :=
  ⟨fun s => ⟨[], (Machine.after_nil s).symm⟩, fun _ _ hrun => nomatch hrun⟩

theorem throw_bind (e : ε) (f : α → Prog ε τ β) :
    Local lo hi Q P ((MonadExcept.throw e : Prog ε τ α) >>= f) :=
  ⟨fun s => ⟨[], (Machine.after_nil s).symm⟩, fun _ _ hrun => nomatch hrun⟩

theorem check (e : ε) (b : Bool) : Local lo hi Q P (ByteMachine.check e b : Prog ε τ Unit) := by
  cases b
  · exact throw e
  · exact pure ()

theorem ite {c : Prop} [Decidable c] {x y : Prog ε τ α} (hx : c → Local lo hi Q P x)
    (hy : ¬ c → Local lo hi Q P y) : Local lo hi Q P (if c then x else y) := by
  split
  · next hc => exact hx hc
  · next hc => exact hy hc

theorem load {f : Mem → α} (h : ∀ {m m'}, P m → m.Agree m' lo hi → f m' = f m) :
    Local lo hi Q P (ByteMachine.load f : Prog ε τ α) :=
  of_events (f := f) (g := fun _ => []) (fun s => by rw [Machine.after_nil]; rfl)
    fun hP _ hagree => ⟨h hP hagree, rfl⟩

theorem emit (e : Event τ) : Local lo hi Q P (ByteMachine.emit e : Prog ε τ Unit) :=
  of_events (f := fun _ => ()) (g := fun _ => [e]) (fun _ => rfl) fun _ _ _ => ⟨rfl, rfl⟩

/-- Behind an event it is known to be one of those assumed. -/
theorem emit_bind {e : Event τ} {f : Unit → Prog ε τ β}
    (hf : Local lo hi Q (fun _ => Q e) (f ())) : Local lo hi Q P (ByteMachine.emit e >>= f) := by
  refine (emit e).bind (R := fun _ _ => Q e) ?_ fun _ => hf
  intro s a es _ hrun hes
  have hafter : s.after [e] = s.after es := (EStateM.Result.ok.inj hrun).2
  have heq : es = [e] := (Machine.after_inj hafter).symm
  exact hes e (by rw [heq]; exact List.mem_singleton_self e)

theorem store32 (site : τ) (addr v : Nat) :
    Local lo hi Q P (ByteMachine.store32 site addr v : Prog ε τ Unit) :=
  of_events (f := fun _ => ()) (g := fun _ => [.store site addr (Mem.bytes32 v)]) (fun _ => rfl)
    fun _ _ _ => ⟨rfl, rfl⟩

theorem storeBytes (site : τ) (addr : Nat) (bytes : List UInt8) :
    Local lo hi Q P (ByteMachine.storeBytes site addr bytes : Prog ε τ Unit) :=
  of_events (f := fun _ => ()) (g := fun _ => byteStores site addr bytes)
    (fun s => by rw [storeBytes_run, Machine.storeBytes_after]) fun _ _ _ => ⟨rfl, rfl⟩

theorem memset (site : τ) (addr n : Nat) :
    Local lo hi Q P (ByteMachine.memset site addr n : Prog ε τ Unit) := storeBytes site addr _

/-- A field is stored by reading its word, which lies where it is stored. -/
theorem storeBits {site : τ} {addr : Nat} (w n v : Nat)
    (hQ : ∀ bytes, bytes.length = 4 → Q (.store site addr bytes) → lo ≤ addr ∧ addr + 4 ≤ hi) :
    Local lo hi Q P (ByteMachine.storeBits site addr w n v : Prog ε τ Unit) := by
  refine of_events (f := fun _ => ())
    (g := fun m => [.store site addr (Mem.bytes32 (setBits (m.load32 addr) w n v))]) (fun _ => rfl) ?_
  intro m m' _ hes hagree
  obtain ⟨hlo, hhi⟩ := hQ _ (Mem.bytes32_length _) (hes _ (List.mem_singleton_self _))
  rw [(hagree.mono hlo hhi).load32]
  exact ⟨rfl, rfl⟩

end Local

end ByteMachine
