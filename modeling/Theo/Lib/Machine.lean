import Theo.Lib.Memory

set_option autoImplicit false

/-! # Programs that store into memory

A program over byte memory runs on a `Machine`: the memory as the program itself sees it, and the
log of everything it did to it, in program order (stores, memory barriers, and marks that note
which operation ran with which operands). A program may abort; the machine it aborts in is part of
the outcome, so that what it had stored by then can still be asked about.

`Emits P s s'` says that `s'` is `s` after some further events that all satisfy `P`, the memory
being exactly their effect. It carries both what a program stored and what it left alone, and
composes along sequencing. -/

namespace ByteMachine

variable {ε τ α β : Type}

/-- One observable action of a program; `τ` names the places of the program that act. A store is
one indivisible access: a word is stored as its four bytes, a copied block byte by byte. -/
inductive Event (τ : Type) where
  | store (site : τ) (addr : Nat) (bytes : List UInt8)
  | barrier
  | mark (note : τ)

/-- The effect of an event on memory. -/
def Event.apply (m : Mem) : Event τ → Mem
  | .store _ addr bytes => m.write addr bytes
  | _ => m

/-- The memory after a list of events. -/
def replay (m : Mem) (es : List (Event τ)) : Mem := es.foldl Event.apply m

/-- Memory and the log of what was done to it, oldest first. -/
structure Machine (τ : Type) where
  mem : Mem
  log : List (Event τ)

def Machine.emit (s : Machine τ) (e : Event τ) : Machine τ := ⟨e.apply s.mem, s.log ++ [e]⟩

def Machine.store32 (s : Machine τ) (site : τ) (addr v : Nat) : Machine τ :=
  s.emit (.store site addr (Mem.bytes32 v))

def Machine.store64 (s : Machine τ) (site : τ) (addr v : Nat) : Machine τ :=
  s.emit (.store site addr (Mem.bytes64 v))

def Machine.storeBytes (s : Machine τ) (site : τ) : Nat → List UInt8 → Machine τ
  | _, [] => s
  | addr, b :: bytes => (s.emit (.store site addr [b])).storeBytes site (addr + 1) bytes

/-- Store a bit field: read the word, replace the field, write the word back. -/
def Machine.storeBits (s : Machine τ) (site : τ) (addr lo n v : Nat) : Machine τ :=
  s.store32 site addr (setBits (s.mem.load32 addr) lo n v)

/-- Programs: state passing over the machine, with abort reasons `ε`. -/
abbrev Prog (ε τ α : Type) := EStateM ε (Machine τ) α

/-! ## Primitive programs -/

/-- Read something off the memory. -/
def load (f : Mem → α) : Prog ε τ α := fun s => .ok (f s.mem) s

def emit (e : Event τ) : Prog ε τ Unit := fun s => .ok () (s.emit e)

/-- Store a 32-bit word in one access. -/
def store32 (site : τ) (addr v : Nat) : Prog ε τ Unit := fun s => .ok () (s.store32 site addr v)

/-- Store a 64-bit word in one access. -/
def store64 (site : τ) (addr v : Nat) : Prog ε τ Unit := fun s => .ok () (s.store64 site addr v)

/-- Store a block of bytes, one access a byte. -/
def storeBytes (site : τ) (addr : Nat) (bytes : List UInt8) : Prog ε τ Unit :=
  fun s => .ok () (s.storeBytes site addr bytes)

def storeBits (site : τ) (addr lo n v : Nat) : Prog ε τ Unit :=
  fun s => .ok () (s.storeBits site addr lo n v)

/-- Clear `n` bytes. -/
def memset (site : τ) (addr n : Nat) : Prog ε τ Unit := storeBytes site addr (List.replicate n 0)

/-- Go on only if `b` holds. -/
def check (e : ε) (b : Bool) : Prog ε τ Unit := if b then pure () else throw e

/-! ## Running -/

theorem bind_ok {x : Prog ε τ α} {s s' : Machine τ} {a : α} (h : x s = .ok a s')
    (f : α → Prog ε τ β) : (x >>= f) s = f a s' := by
  show EStateM.bind x f s = f a s'
  rw [EStateM.bind, h]

theorem bind_error {x : Prog ε τ α} {s s' : Machine τ} {e : ε} (h : x s = .error e s')
    (f : α → Prog ε τ β) : (x >>= f) s = .error e s' := by
  show EStateM.bind x f s = .error e s'
  rw [EStateM.bind, h]

/-- A sequence that returned: its first part returned, and the second went on from there. -/
theorem of_bind_ok {x : Prog ε τ α} {f : α → Prog ε τ β} {s s'' : Machine τ} {b : β}
    (h : (x >>= f) s = .ok b s'') : ∃ a s', x s = .ok a s' ∧ f a s' = .ok b s'' := by
  cases hx : x s with
  | ok a s' => exact ⟨a, s', rfl, by rwa [bind_ok hx] at h⟩
  | error e s' =>
      rw [bind_error hx] at h
      cases h

@[simp]
theorem pure_run (a : α) (s : Machine τ) : (pure a : Prog ε τ α) s = .ok a s := rfl

@[simp]
theorem pure_bind_run (a : α) (f : α → Prog ε τ β) (s : Machine τ) :
    ((pure a : Prog ε τ α) >>= f) s = f a s := rfl

@[simp]
theorem load_bind (g : Mem → α) (f : α → Prog ε τ β) (s : Machine τ) :
    ((load g : Prog ε τ α) >>= f) s = f (g s.mem) s := rfl

@[simp]
theorem load_run (g : Mem → α) (s : Machine τ) : (load g : Prog ε τ α) s = .ok (g s.mem) s := rfl

@[simp]
theorem emit_bind (e : Event τ) (f : Unit → Prog ε τ β) (s : Machine τ) :
    ((emit e : Prog ε τ Unit) >>= f) s = f () (s.emit e) := rfl

@[simp]
theorem emit_run (e : Event τ) (s : Machine τ) : (emit e : Prog ε τ Unit) s = .ok () (s.emit e) :=
  rfl

@[simp]
theorem store32_bind (site : τ) (addr v : Nat) (f : Unit → Prog ε τ β) (s : Machine τ) :
    ((store32 site addr v : Prog ε τ Unit) >>= f) s = f () (s.store32 site addr v) := rfl

@[simp]
theorem store32_run (site : τ) (addr v : Nat) (s : Machine τ) :
    (store32 site addr v : Prog ε τ Unit) s = .ok () (s.store32 site addr v) := rfl

@[simp]
theorem store64_bind (site : τ) (addr v : Nat) (f : Unit → Prog ε τ β) (s : Machine τ) :
    ((store64 site addr v : Prog ε τ Unit) >>= f) s = f () (s.store64 site addr v) := rfl

@[simp]
theorem storeBytes_bind (site : τ) (addr : Nat) (bytes : List UInt8) (f : Unit → Prog ε τ β)
    (s : Machine τ) : ((storeBytes site addr bytes : Prog ε τ Unit) >>= f) s =
      f () (s.storeBytes site addr bytes) := rfl

@[simp]
theorem storeBytes_run (site : τ) (addr : Nat) (bytes : List UInt8) (s : Machine τ) :
    (storeBytes site addr bytes : Prog ε τ Unit) s = .ok () (s.storeBytes site addr bytes) := rfl

@[simp]
theorem storeBits_bind (site : τ) (addr lo n v : Nat) (f : Unit → Prog ε τ β) (s : Machine τ) :
    ((storeBits site addr lo n v : Prog ε τ Unit) >>= f) s =
      f () (s.storeBits site addr lo n v) := rfl

@[simp]
theorem memset_bind (site : τ) (addr n : Nat) (f : Unit → Prog ε τ β) (s : Machine τ) :
    ((memset site addr n : Prog ε τ Unit) >>= f) s =
      f () (s.storeBytes site addr (List.replicate n 0)) := rfl

@[simp]
theorem memset_run (site : τ) (addr n : Nat) (s : Machine τ) :
    (memset site addr n : Prog ε τ Unit) s =
      .ok () (s.storeBytes site addr (List.replicate n 0)) := rfl

theorem check_bind_true (e : ε) {b : Bool} (h : b = true) (f : Unit → Prog ε τ β)
    (s : Machine τ) : ((check e b : Prog ε τ Unit) >>= f) s = f () s := by
  subst h
  rfl

theorem check_bind_false (e : ε) {b : Bool} (h : b = false) (f : Unit → Prog ε τ β)
    (s : Machine τ) : ((check e b : Prog ε τ Unit) >>= f) s = .error e s := by
  subst h
  rfl

/-! ## Memory after the primitives -/

@[simp]
theorem Machine.mem_store32 (s : Machine τ) (site : τ) (addr v : Nat) :
    (s.store32 site addr v).mem = s.mem.write addr (Mem.bytes32 v) := rfl

@[simp]
theorem Machine.mem_store64 (s : Machine τ) (site : τ) (addr v : Nat) :
    (s.store64 site addr v).mem = s.mem.write addr (Mem.bytes64 v) := rfl

@[simp]
theorem Machine.mem_storeBytes (s : Machine τ) (site : τ) (addr : Nat) (bytes : List UInt8) :
    (s.storeBytes site addr bytes).mem = s.mem.write addr bytes := by
  induction bytes generalizing s addr with
  | nil => simp [Machine.storeBytes]
  | cons b bytes ih =>
      rw [Machine.storeBytes, ih, Mem.write_cons]
      rfl

@[simp]
theorem Machine.mem_emit_mark (s : Machine τ) (note : τ) : (s.emit (.mark note)).mem = s.mem := rfl

@[simp]
theorem Machine.mem_emit_barrier (s : Machine τ) : (s.emit .barrier).mem = s.mem := rfl

theorem Machine.load32_store32 (s : Machine τ) (site : τ) (addr v : Nat) :
    (s.store32 site addr v).mem.load32 addr = v % 2 ^ 32 := by
  rw [Machine.mem_store32, Mem.load32_write_self]

theorem Machine.store32_agree (s : Machine τ) (site : τ) (addr v : Nat) {lo hi : Nat}
    (h : hi ≤ addr ∨ addr + 4 ≤ lo) : s.mem.Agree (s.store32 site addr v).mem lo hi :=
  Mem.write_agree _ _ _ (by simpa using h)

theorem Machine.load32_storeBits (s : Machine τ) (site : τ) (addr v : Nat) {lo n : Nat}
    (h : lo + n ≤ 32) :
    (s.storeBits site addr lo n v).mem.load32 addr = setBits (s.mem.load32 addr) lo n v := by
  rw [Machine.storeBits, Machine.load32_store32]
  exact Nat.mod_eq_of_lt (setBits_lt v (Mem.load32_lt _ _) h)

theorem Machine.storeBits_agree (s : Machine τ) (site : τ) (addr lo n v : Nat) {a b : Nat}
    (h : b ≤ addr ∨ addr + 4 ≤ a) : s.mem.Agree (s.storeBits site addr lo n v).mem a b :=
  s.store32_agree site addr _ h

theorem Machine.storeBytes_agree (s : Machine τ) (site : τ) (addr : Nat) (bytes : List UInt8)
    {lo hi : Nat} (h : hi ≤ addr ∨ addr + bytes.length ≤ lo) :
    s.mem.Agree (s.storeBytes site addr bytes).mem lo hi := by
  rw [Machine.mem_storeBytes]
  exact Mem.write_agree _ _ _ h

theorem replay_append (m : Mem) (es es' : List (Event τ)) :
    replay m (es ++ es') = replay (replay m es) es' := List.foldl_append

/-! ## What a run emits -/

/-- `s'` is `s` after further events that all satisfy `P`. -/
def Emits (P : Event τ → Prop) (s s' : Machine τ) : Prop :=
  ∃ es, s'.log = s.log ++ es ∧ s'.mem = replay s.mem es ∧ ∀ e ∈ es, P e

variable {P Q : Event τ → Prop} {s s' s'' : Machine τ}

theorem Emits.refl (P : Event τ → Prop) (s : Machine τ) : Emits P s s :=
  ⟨[], by simp, rfl, by simp⟩

theorem Emits.trans (h : Emits P s s') (h' : Emits P s' s'') : Emits P s s'' := by
  obtain ⟨es, hlog, hmem, hP⟩ := h
  obtain ⟨es', hlog', hmem', hP'⟩ := h'
  refine ⟨es ++ es', by rw [hlog', hlog, List.append_assoc], by rw [hmem', hmem, replay_append], ?_⟩
  intro e he
  rcases List.mem_append.1 he with he | he
  · exact hP e he
  · exact hP' e he

theorem Emits.mono (h : Emits P s s') (hPQ : ∀ e, P e → Q e) : Emits Q s s' := by
  obtain ⟨es, hlog, hmem, hP⟩ := h
  exact ⟨es, hlog, hmem, fun e he => hPQ e (hP e he)⟩

theorem Emits.emit {e : Event τ} (s : Machine τ) (he : P e) : Emits P s (s.emit e) :=
  ⟨[e], rfl, rfl, by simpa using he⟩

theorem Emits.store32 {site : τ} {addr v : Nat} (s : Machine τ)
    (h : P (.store site addr (Mem.bytes32 v))) : Emits P s (s.store32 site addr v) :=
  Emits.emit s h

theorem Emits.storeBytes {site : τ} {addr : Nat} {bytes : List UInt8} (s : Machine τ)
    (h : ∀ a, ∀ b ∈ bytes, addr ≤ a → a < addr + bytes.length → P (.store site a [b])) :
    Emits P s (s.storeBytes site addr bytes) := by
  induction bytes generalizing s addr with
  | nil => exact Emits.refl P s
  | cons b bytes ih =>
      simp only [List.length_cons] at h
      have hhead : Emits P s (s.emit (.store site addr [b])) :=
        Emits.emit s (h addr b List.mem_cons_self (by omega) (by omega))
      exact hhead.trans (ih _ fun a b' hb' hlo hhi =>
        h a b' (List.mem_cons_of_mem _ hb') (by omega) (by omega))

/-- The event stores nothing at the addresses from `lo` up to `hi`. -/
def Event.Avoids (lo hi : Nat) : Event τ → Prop
  | .store _ addr bytes => hi ≤ addr ∨ addr + bytes.length ≤ lo
  | _ => True

theorem replay_agree {m : Mem} {es : List (Event τ)} {lo hi : Nat}
    (h : ∀ e ∈ es, e.Avoids lo hi) : m.Agree (replay m es) lo hi := by
  induction es generalizing m with
  | nil => exact Mem.Agree.refl m lo hi
  | cons e es ih =>
      have htail := ih (m := e.apply m) fun e' he' => h e' (List.mem_cons_of_mem _ he')
      refine Mem.Agree.trans ?_ htail
      cases e with
      | store site addr bytes => exact Mem.write_agree m addr bytes (h _ List.mem_cons_self)
      | barrier => exact Mem.Agree.refl m lo hi
      | mark note => exact Mem.Agree.refl m lo hi

/-- The frame rule: bytes that no emitted event may store to are unchanged. -/
theorem Emits.agree (h : Emits P s s') {lo hi : Nat} (hP : ∀ e, P e → e.Avoids lo hi) :
    s.mem.Agree s'.mem lo hi := by
  obtain ⟨es, _, hmem, hes⟩ := h
  rw [hmem]
  exact replay_agree fun e he => hP e (hes e he)

/-- The event is a store of `site` inside the addresses from `lo` up to `hi`. -/
def Event.StoreIn (site : τ) (lo hi : Nat) (e : Event τ) : Prop :=
  ∃ addr bytes, e = .store site addr bytes ∧ lo ≤ addr ∧ addr + bytes.length ≤ hi

theorem Event.StoreIn.mono {e : Event τ} {site : τ} {lo hi lo' hi' : Nat}
    (h : e.StoreIn site lo hi) (hlo : lo' ≤ lo) (hhi : hi ≤ hi') : e.StoreIn site lo' hi' := by
  obtain ⟨addr, bytes, rfl, ha, hb⟩ := h
  exact ⟨addr, bytes, rfl, by omega, by omega⟩

theorem Emits.store32_in {site : τ} {addr v lo hi : Nat} (s : Machine τ) (hlo : lo ≤ addr)
    (hhi : addr + 4 ≤ hi) : Emits (Event.StoreIn site lo hi) s (s.store32 site addr v) :=
  Emits.store32 s ⟨addr, _, rfl, hlo, by simpa using hhi⟩

theorem Emits.storeBits_in {site : τ} {addr k n v lo hi : Nat} (s : Machine τ) (hlo : lo ≤ addr)
    (hhi : addr + 4 ≤ hi) : Emits (Event.StoreIn site lo hi) s (s.storeBits site addr k n v) :=
  Emits.store32_in s hlo hhi

theorem Emits.storeBytes_in {site : τ} {addr lo hi : Nat} {bytes : List UInt8} (s : Machine τ)
    (hlo : lo ≤ addr) (hhi : addr + bytes.length ≤ hi) :
    Emits (Event.StoreIn site lo hi) s (s.storeBytes site addr bytes) :=
  Emits.storeBytes s fun a _ _ ha hb =>
    ⟨a, _, rfl, by omega, by simp only [List.length_singleton]; omega⟩

theorem Event.StoreIn.avoids {e : Event τ} {site : τ} {lo hi lo' hi' : Nat}
    (h : e.StoreIn site lo hi) (hd : hi' ≤ lo ∨ hi ≤ lo') : e.Avoids lo' hi' := by
  obtain ⟨addr, bytes, rfl, ha, hb⟩ := h
  show hi' ≤ addr ∨ addr + bytes.length ≤ lo'
  omega

/-! ## Clearing -/

/-- The event clears bytes between the addresses `lo` and `hi`. -/
def Event.ClearIn (site : τ) (lo hi : Nat) (e : Event τ) : Prop :=
  ∃ addr n, e = .store site addr (List.replicate n 0) ∧ lo ≤ addr ∧ addr + n ≤ hi

theorem Event.ClearIn.storeIn {e : Event τ} {site : τ} {lo hi : Nat} (h : e.ClearIn site lo hi) :
    e.StoreIn site lo hi := by
  obtain ⟨addr, n, rfl, hlo, hhi⟩ := h
  exact ⟨addr, _, rfl, hlo, by rwa [List.length_replicate]⟩

theorem Emits.memset_in {site : τ} {addr n lo hi : Nat} (s : Machine τ) (hlo : lo ≤ addr)
    (hhi : addr + n ≤ hi) :
    Emits (Event.ClearIn site lo hi) s (s.storeBytes site addr (List.replicate n 0)) := by
  refine Emits.storeBytes s fun a b hb ha ha' => ?_
  rw [List.eq_of_mem_replicate hb]
  rw [List.length_replicate] at ha'
  exact ⟨a, 1, rfl, by omega, by omega⟩

/-- Cleared bytes stay cleared. -/
theorem replay_zero {m : Mem} {es : List (Event τ)} {lo hi : Nat}
    (h : ∀ e ∈ es, e.Avoids lo hi ∨ ∃ site lo' hi', e.ClearIn site lo' hi') (hz : m.Zero lo hi) :
    (replay m es).Zero lo hi := by
  induction es generalizing m with
  | nil => exact hz
  | cons e es ih =>
      refine ih (fun e' he' => h e' (List.mem_cons_of_mem _ he')) ?_
      rcases h e List.mem_cons_self with havoids | ⟨site, lo', hi', addr, n, rfl, -, -⟩
      · have hone : m.Agree (replay m [e]) lo hi := by
          refine replay_agree fun e' he' => ?_
          rw [List.mem_singleton.1 he']
          exact havoids
        exact hone.zero hz
      · exact hz.write addr n

theorem Emits.zero (h : Emits P s s') {lo hi : Nat}
    (hP : ∀ e, P e → e.Avoids lo hi ∨ ∃ site lo' hi', e.ClearIn site lo' hi')
    (hz : s.mem.Zero lo hi) : s'.mem.Zero lo hi := by
  obtain ⟨es, _, hmem, hes⟩ := h
  rw [hmem]
  exact replay_zero (fun e he => hP e (hes e he)) hz

end ByteMachine
