import Theo.Model.Cell
import Theo.Proofs.Directory

set_option autoImplicit false

/-! # The cell header

`HeaderRep m H n b dir`: the header at `H` counts `n` entries of `b` bytes and indexes them by
`dir`. Adding and removing an entry keep the two counts in step with the index; a removal passes
its assertions as long as another entry is left. -/

namespace Theo

open ByteMachine BucketIndex

structure HeaderRep (m : Mem) (H n b : Nat) (dir : Dir) : Prop where
  entries : m.load32 (H + 4) = n
  bytes : m.load32 (H + 8) = b
  dir : DirRep m (H + 28) H dir

/-- A store of the header: its counts or its directory. -/
def HeaderStore (H addLo removeLo : Nat) (e : Event Site) : Prop :=
  e.StoreIn .header (H + 4) (H + 12) ∨ DirStore (H + 28) H addLo removeLo e

theorem HeaderStore.mono {H addLo removeLo addLo' removeLo' : Nat} {e : Event Site}
    (h : HeaderStore H addLo removeLo e) (hadd : addLo' ≤ addLo) (hremove : removeLo' ≤ removeLo) :
    HeaderStore H addLo' removeLo' e := by
  rcases h with h | h
  · exact Or.inl h
  · exact Or.inr (h.mono hadd hremove)

/-- What lies below the overflow records, or between the counts and the directory, or in front of
the counts is out of reach of the header's stores. -/
theorem HeaderStore.avoids {H addLo removeLo lo hi : Nat} {e : Event Site}
    (h : HeaderStore H addLo removeLo e)
    (hd : hi ≤ addLo ∧ hi ≤ removeLo ∧ hi ≤ H + 4 ∨ H ≤ lo ∧ hi ≤ H + 4 ∨
      H + 12 ≤ lo ∧ hi ≤ H + 28 ∨ H + 28704 ≤ lo) : e.Avoids lo hi := by
  rcases h with h | h | h | h
  · exact h.avoids (by omega)
  · exact h.avoids (by omega)
  · exact h.avoids (by omega)
  · exact h.avoids (by omega)

theorem HeaderRep.congr {m m' : Mem} {H n b : Nat} {dir : Dir} (h : HeaderRep m H n b dir)
    (hover : m.Agree m' (H - 36 * dir.stack.length) H) (hcounts : m.Agree m' (H + 4) (H + 12))
    (hdir : m.Agree m' (H + 28) (H + 28704)) : HeaderRep m' H n b dir where
  entries := by rw [(hcounts.mono (by omega) (by omega)).load32, h.entries]
  bytes := by rw [(hcounts.mono (by omega) (by omega)).load32, h.bytes]
  dir := h.dir.congr (hdir.mono (by omega) (by omega)) hover

theorem headerOverflowCount_eq {m : Mem} {H n b : Nat} {dir : Dir} (h : HeaderRep m H n b dir) :
    headerOverflowCount m H = dir.stack.length := h.dir.count

theorem int32_pos {w : Nat} (h : 0 < w) (hw : w < 2 ^ 31) : 0 < int32 w := by
  unfold int32
  rw [if_pos hw]
  omega

section

variable {s : Store} {H n b : Nat} {dir : Dir}

theorem apart_header (H k : Nat) : Apart (H + 28) H k := Or.inl (by omega)

theorem cellHeaderAdd_spec {e : CellDirEntry} (size : Nat) (h : HeaderRep s.mem H n b dir)
    (hset : e.set = true) (hroom : 36 * (dir.stack.length + 1) ≤ H)
    (hover : dir.stack.length < 65535)
    (hn : n + 1 < 2 ^ 32) (hb : b + size < 2 ^ 32) :
    ∃ s', cellHeaderAdd H e size s = .ok () s' ∧
      HeaderRep s'.mem H (n + 1) (b + size) (dir.add e) ∧
      Emits (HeaderStore H (H - 36 * (dir.add e).stack.length) H) s s' := by
  obtain ⟨s₁, hrun, hdir, hemits⟩ :=
    cellDirAdd_spec h.dir hset hroom (apart_header H _) hover
  have hkeep : ∀ {lo hi}, H ≤ lo → hi ≤ H + 28 → s.mem.Agree s₁.mem lo hi := by
    intro lo hi hlo hhi
    refine hemits.agree fun ev hev => ?_
    rcases hev with hev | hev | hev
    · exact hev.avoids (by omega)
    · exact hev.avoids (by omega)
    · exact hev.avoids (by omega)
  have hentries₁ : s₁.mem.load32 (H + 4) = n := by
    rw [(hkeep (by omega) (by omega)).load32, h.entries]
  have hbytes₁ : s₁.mem.load32 (H + 8) = b := by
    rw [(hkeep (by omega) (by omega)).load32, h.bytes]
  let s₂ := s₁.store32 .header (H + 4) (u32 (n + 1))
  let s₃ := s₂.store32 .header (H + 8) (u32 (b + size))
  have hframe₂ : ∀ {lo hi}, (hi ≤ H + 4 ∨ H + 8 ≤ lo) → s₁.mem.Agree s₂.mem lo hi :=
    fun hd => Machine.store32_agree _ _ _ _ (by omega)
  have hframe₃ : ∀ {lo hi}, (hi ≤ H + 8 ∨ H + 12 ≤ lo) → s₂.mem.Agree s₃.mem lo hi :=
    fun hd => Machine.store32_agree _ _ _ _ (by omega)
  refine ⟨s₃, ?_, ⟨?_, ?_, ?_⟩, ?_⟩
  · rw [cellHeaderAdd]
    simp only [cellDirPtr, entryCountPtr, byteCountPtr]
    rw [bind_ok hrun]
    simp only [load_bind, store32_bind, store32_run, hentries₁]
    rw [(hframe₂ (Or.inr (Nat.le_refl _))).load32, hbytes₁]
  · rw [(hframe₃ (Or.inl (by omega))).load32, Machine.load32_store32, u32]
    omega
  · rw [Machine.load32_store32, u32]
    omega
  · refine hdir.congr ?_ ?_
    · exact (hframe₂ (by omega)).trans (hframe₃ (by omega))
    · exact (hframe₂ (by omega)).trans (hframe₃ (by omega))
  · have h₂ : Emits (Event.StoreIn .header (H + 4) (H + 12)) s₁ s₃ :=
      (Emits.store32_in s₁ (by omega) (by omega)).trans
        (Emits.store32_in s₂ (by omega) (by omega))
    exact (hemits.mono fun ev hev => Or.inr hev).trans (h₂.mono fun ev hev => Or.inl hev)

/-- Removing the body entry at `ptr` from a header that counts another entry besides it. -/
theorem cellHeaderRemove_spec (h : HeaderRep s.mem H n b dir) {ptr : Nat} {c : Checksum}
    {z : Nat} {dir' : Dir} (hc : loadChecksum s.mem ptr = c) (hz : (entryBits s.mem ptr).size = z)
    (hremove : dir.remove c = some dir') (hptr : ptr + 36 ≤ H - 36 * dir.stack.length)
    (hn : 1 < n) (hn' : n < 2 ^ 31) (hb : z < b) (hb' : b < 2 ^ 31) :
    ∃ s', cellHeaderRemove H ptr s = .ok () s' ∧ HeaderRep s'.mem H (n - 1) (b - z) dir' ∧
      Emits (HeaderStore H H (H - 36 * dir.stack.length)) s s' := by
  obtain ⟨s₁, hrun, hdir, hemits⟩ := cellDirRemove_some h.dir (apart_header H _) hremove
  have hkeep : ∀ {lo hi}, (H ≤ lo ∧ hi ≤ H + 28 ∨ hi ≤ H - 36 * dir.stack.length) →
      s.mem.Agree s₁.mem lo hi := by
    intro lo hi hd
    refine hemits.agree fun ev hev => ?_
    rcases hev with hev | hev | hev
    · exact hev.avoids (by omega)
    · exact hev.avoids (by omega)
    · exact hev.avoids (by omega)
  have hentries₁ : s₁.mem.load32 (H + 4) = n := by
    rw [(hkeep (by omega)).load32, h.entries]
  have hbytes₁ : s₁.mem.load32 (H + 8) = b := by
    rw [(hkeep (by omega)).load32, h.bytes]
  -- the two counters, neither of which goes below one
  let s₂ := s₁.store32 .header (H + 4) (sub32 n 1)
  let s₃ := s₂.store32 .header (H + 8) (sub32 b z)
  have hframe₂ : ∀ {lo hi}, (hi ≤ H + 4 ∨ H + 8 ≤ lo) → s₁.mem.Agree s₂.mem lo hi :=
    fun hd => Machine.store32_agree _ _ _ _ (by omega)
  have hframe₃ : ∀ {lo hi}, (hi ≤ H + 8 ∨ H + 12 ≤ lo) → s₂.mem.Agree s₃.mem lo hi :=
    fun hd => Machine.store32_agree _ _ _ _ (by omega)
  have hentries₂ : s₂.mem.load32 (H + 4) = n - 1 := by
    rw [Machine.load32_store32, sub32_of_le (by omega) (by omega)]
    omega
  have hbytes₂ : s₂.mem.load32 (H + 8) = b := by
    rw [(hframe₂ (by omega)).load32, hbytes₁]
  have hbytes₃ : s₃.mem.load32 (H + 8) = b - z := by
    rw [Machine.load32_store32, sub32_of_le (by omega) (by omega)]
    omega
  have hz₂ : (entryBits s₂.mem ptr).size = z := by
    rw [entryBits_congr ((hkeep (by omega)).trans (hframe₂ (by omega))), hz]
  refine ⟨s₃, ?_, ⟨?_, hbytes₃, ?_⟩, ?_⟩
  · rw [cellHeaderRemove, load_bind, hc]
    simp only [cellDirPtr, entryCountPtr, byteCountPtr]
    rw [bind_ok hrun, always, check_bind_true _ rfl, load_bind, hentries₁, store32_bind, load_bind]
    change (always (0 < int32 (s₂.mem.load32 (H + 4))) >>= _) s₂ = _
    rw [hentries₂, always, check_bind_true _ (decide_eq_true (int32_pos (by omega) (by omega))),
      load_bind, hbytes₂, load_bind, hz₂, store32_bind, load_bind]
    change always (0 < int32 (s₃.mem.load32 (H + 8))) s₃ = _
    rw [hbytes₃, always, check, decide_eq_true (int32_pos (by omega) (by omega))]
    rfl
  · rw [(hframe₃ (by omega)).load32, hentries₂]
  · refine hdir.congr ?_ ?_
    · exact (hframe₂ (by omega)).trans (hframe₃ (by omega))
    · exact (hframe₂ (by omega)).trans (hframe₃ (by omega))
  · have h₂ : Emits (Event.StoreIn .header (H + 4) (H + 12)) s₁ s₃ :=
      (Emits.store32_in s₁ (by omega) (by omega)).trans
        (Emits.store32_in s₂ (by omega) (by omega))
    exact (hemits.mono fun ev hev => Or.inr hev).trans (h₂.mono fun ev hev => Or.inl hev)

/-- Removing an entry that the index does not hold fails the assertion and stores nothing. -/
theorem cellHeaderRemove_abort (h : HeaderRep s.mem H n b dir) {ptr : Nat}
    (hremove : dir.remove (loadChecksum s.mem ptr) = none) :
    cellHeaderRemove H ptr s = .error .always s := by
  rw [cellHeaderRemove, load_bind]
  simp only [cellDirPtr]
  rw [bind_ok (cellDirRemove_none h.dir hremove), always, check_bind_false _ rfl]

end

end Theo
