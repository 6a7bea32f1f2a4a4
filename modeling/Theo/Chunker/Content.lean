import Theo.Chunker.Cut

set_option autoImplicit false

/-! # Cuts and the content at the cut

A chunk is meant to end where the window that ends there triggers. The search, though, is fed the
buffer from its start and not from the minimum size on, so that the window that decides about a cut at
`2048 + d` is the one that ends at `d`. A chunker therefore cuts by the content at the cut exactly on
the buffers where the two windows trigger at the same offset first (`cuts_by_content_iff`). -/

namespace Theo

open ByteMachine RollingHash

/-- The value that `rolling_hash2_reset` computes for the window that ends at `n` meets the trigger. -/
def contentHit (chunker : Chunker) (buffer : List UInt8) (n : Nat) : Bool :=
  triggers chunkerMask chunkerTrigger
    (rollingHash2Reset chunker.rhState2 (buffer.drop (n - chunkerWindowWidth))).hash

/-- The window that ends at `n` triggers, and `n` is a possible size of a chunk. -/
def ContentCut (chunker : Chunker) (buffer : List UInt8) (n : Nat) : Prop :=
  chunkerMinChunkSize < n ∧ n ≤ min buffer.length chunkerMaxChunkSize ∧
    contentHit chunker buffer n = true

/-- Cuts are defined by the content at the cut: the size found is the least at which the window that
ends there triggers, or the maximum size if there is none; and nothing is found only if there is none
and the buffer is shorter than the maximum size. -/
def CutByContent (chunker : Chunker) (buffer : List UInt8) : Option ChunkRef → Prop
  | some chunkRef =>
      (ContentCut chunker buffer chunkRef.buffer.length ∧
        ∀ n, ContentCut chunker buffer n → chunkRef.buffer.length ≤ n) ∨
      ((∀ n, ¬ ContentCut chunker buffer n) ∧ chunkerMaxChunkSize ≤ buffer.length ∧
        chunkRef.buffer.length = chunkerMaxChunkSize)
  | none => (∀ n, ¬ ContentCut chunker buffer n) ∧ buffer.length < chunkerMaxChunkSize

/-- Wherever neither the window that ends at `2048 + d'` nor the one that the search is at after `d'`
bytes triggers for a smaller `d'`, the two agree at `d` (short of the maximum size). -/
def WindowsAgree (chunker : Chunker) (buffer : List UInt8) : Prop :=
  ∀ d, 1 ≤ d → d ≤ searchLength buffer → chunkerMinChunkSize + d ≠ chunkerMaxChunkSize →
    (∀ d', 1 ≤ d' → d' < d → contentHit chunker buffer (chunkerMinChunkSize + d') = false ∧
      fedHit buffer d' = false) →
    contentHit chunker buffer (chunkerMinChunkSize + d) = fedHit buffer d

section

variable {checksumGen : List UInt8 → Checksum} {chunker : Chunker} {buffer : List UInt8} {s : Store}

/-! ## The size that the content defines -/

theorem contentCut_iff {n : Nat} : ContentCut chunker buffer n ↔ ∃ d, 1 ≤ d ∧
    d ≤ searchLength buffer ∧ n = chunkerMinChunkSize + d ∧
      contentHit chunker buffer (chunkerMinChunkSize + d) = true := by
  rw [ContentCut, searchLength]
  constructor
  · rintro ⟨hlo, hhi, hhit⟩
    obtain ⟨d, rfl⟩ := Nat.exists_eq_add_of_le (Nat.le_of_lt hlo)
    exact ⟨d, by omega, by omega, rfl, hhit⟩
  · rintro ⟨d, hlo, hhi, rfl, hhit⟩
    exact ⟨by omega, by omega, hhit⟩

/-- What the content defines, as a search. -/
theorem cutByContent_iff (found : Option ChunkRef) : CutByContent chunker buffer found ↔
    found.map (fun chunkRef => chunkRef.buffer.length) =
      cutAt (fun d => contentHit chunker buffer (chunkerMinChunkSize + d)) buffer := by
  rw [cutAt]
  cases hfirst : firstHit (fun d => contentHit chunker buffer (chunkerMinChunkSize + d))
      (searchLength buffer) with
  | none =>
      have hno : ∀ n, ¬ ContentCut chunker buffer n := by
        intro n hn
        obtain ⟨d, hlo, hhi, -, hhit⟩ := contentCut_iff.1 hn
        rw [firstHit_eq_none.1 hfirst d hlo hhi] at hhit
        cases hhit
      rw [Option.elim_none]
      cases found with
      | none =>
          rw [CutByContent, Option.map_none]
          split
          · next hmax => simp [hmax]
          · next hmax => simpa [hno] using hmax
      | some chunkRef =>
          rw [CutByContent, Option.map_some]
          split
          · next hmax => simp [hno, hmax]
          · next hmax => simp [hno, hmax]
  | some o =>
      obtain ⟨hhit, hlo, hhi, hleast⟩ := firstHit_eq_some.1 hfirst
      have hcut : ContentCut chunker buffer (chunkerMinChunkSize + o) :=
        contentCut_iff.2 ⟨o, hlo, hhi, rfl, hhit⟩
      -- the first hit is the least cut
      have hmin : ∀ n, ContentCut chunker buffer n → chunkerMinChunkSize + o ≤ n := by
        intro n hn
        obtain ⟨d, hdlo, -, rfl, hdhit⟩ := contentCut_iff.1 hn
        by_contra hlt
        rw [hleast d hdlo (by omega)] at hdhit
        cases hdhit
      rw [Option.elim_some]
      cases found with
      | none =>
          rw [CutByContent, Option.map_none]
          refine ⟨fun h => absurd hcut (h.1 _), fun h => ?_⟩
          cases h
      | some chunkRef =>
          rw [CutByContent, Option.map_some, Option.some.injEq]
          constructor
          · rintro (⟨hn, hnmin⟩ | ⟨hno, -⟩)
            · exact Nat.le_antisymm (hnmin _ hcut) (hmin _ hn)
            · exact absurd hcut (hno _)
          · intro hn
            rw [hn]
            exact Or.inl ⟨hcut, hmin⟩

/-! ## Two searches -/

/-- Where the first of two searches finds a hit no later than the second, the sizes are equal if they
agree there. -/
theorem cutAt_eq_of_first {p q : Nat → Bool} {o : Nat}
    (hp : firstHit p (searchLength buffer) = some o) (hq : ∀ j, 1 ≤ j → j < o → q j = false)
    (hagree : chunkerMinChunkSize + o ≠ chunkerMaxChunkSize → q o = true) :
    cutAt p buffer = cutAt q buffer := by
  obtain ⟨-, hlo, hhi, -⟩ := firstHit_eq_some.1 hp
  rw [cutAt, cutAt, hp, Option.elim_some]
  cases hqo : q o with
  | true =>
      rw [firstHit_eq_some.2 ⟨hqo, hlo, hhi, hq⟩]
      rfl
  | false =>
      have hend : chunkerMinChunkSize + o = chunkerMaxChunkSize := by
        by_contra hne
        rw [hagree hne] at hqo
        cases hqo
      rw [searchLength] at hhi
      -- the search ends here, and the maximum size is found anyway
      have hnone : firstHit q (searchLength buffer) = none := by
        refine firstHit_eq_none.2 fun j hj hjl => ?_
        rw [searchLength] at hjl
        rcases Nat.lt_or_ge j o with hlt | hge
        · exact hq j hj hlt
        · rw [show j = o by omega, hqo]
      rw [hnone, Option.elim_none, if_pos (by omega), hend]

theorem cutAt_ne_of_first {p q : Nat → Bool} {d : Nat} (hd : 1 ≤ d) (hd' : d ≤ searchLength buffer)
    (hend : chunkerMinChunkSize + d ≠ chunkerMaxChunkSize)
    (hno : ∀ j, 1 ≤ j → j < d → p j = false) (hp : p d = true) (hq : q d = false) :
    cutAt p buffer ≠ cutAt q buffer := by
  rw [cutAt, cutAt, firstHit_eq_some.2 ⟨hp, hd, hd', hno⟩, Option.elim_some]
  cases hfirst : firstHit q (searchLength buffer) with
  | none =>
      rw [Option.elim_none]
      split
      · intro heq
        exact hend (Option.some.inj heq)
      · exact Option.some_ne_none _
  | some o =>
      intro heq
      rw [Option.elim_some, Option.some.injEq] at heq
      have ho : d = o := Nat.add_left_cancel heq
      rw [← ho] at hfirst
      rw [(firstHit_eq_some.1 hfirst).1] at hq
      cases hq

/-- Two searches find the same size if and only if they agree where one of them hits first. -/
theorem cutAt_eq_iff (p q : Nat → Bool) (buffer : List UInt8) : cutAt p buffer = cutAt q buffer ↔
    ∀ d, 1 ≤ d → d ≤ searchLength buffer → chunkerMinChunkSize + d ≠ chunkerMaxChunkSize →
      (∀ d', 1 ≤ d' → d' < d → p d' = false ∧ q d' = false) → p d = q d := by
  constructor
  · intro heq d hd hd' hend hno
    cases hp : p d with
    | true =>
        cases hq : q d with
        | true => rfl
        | false =>
            exact absurd heq (cutAt_ne_of_first hd hd' hend (fun j h h' => (hno j h h').1) hp hq)
    | false =>
        cases hq : q d with
        | true =>
            exact absurd heq.symm
              (cutAt_ne_of_first hd hd' hend (fun j h h' => (hno j h h').2) hq hp)
        | false => rfl
  · intro hagree
    cases hp : firstHit p (searchLength buffer) with
    | none =>
        cases hq : firstHit q (searchLength buffer) with
        | none => rw [cutAt, cutAt, hp, hq]
        | some o =>
            obtain ⟨hhit, hlo, hhi, hleast⟩ := firstHit_eq_some.1 hq
            have hno := firstHit_eq_none.1 hp
            refine (cutAt_eq_of_first hq (fun j h h' => hno j h (by omega)) fun hend => ?_).symm
            rw [hagree o hlo hhi hend fun j h h' => ⟨hno j h (by omega), hleast j h h'⟩, hhit]
    | some o =>
        obtain ⟨hhit, hlo, hhi, hleast⟩ := firstHit_eq_some.1 hp
        by_cases hq : ∀ j, 1 ≤ j → j < o → q j = false
        · refine cutAt_eq_of_first hp hq fun hend => ?_
          rw [← hagree o hlo hhi hend fun j h h' => ⟨hleast j h h', hq j h h'⟩, hhit]
        · -- the second search hits earlier
          cases hqo : firstHit q (searchLength buffer) with
          | none =>
              refine absurd (fun j h h' => ?_) hq
              exact firstHit_eq_none.1 hqo j h (by omega)
          | some o' =>
              obtain ⟨hhit', hlo', hhi', hleast'⟩ := firstHit_eq_some.1 hqo
              have hlt : o' < o := by
                by_contra hge
                exact hq fun j h h' => hleast' j h (by omega)
              have hno : ∀ j, 1 ≤ j → j < o' → p j = false := fun j h h' => hleast j h (by omega)
              refine (cutAt_eq_of_first hqo hno fun hend => ?_).symm
              rw [hagree o' hlo' hhi' hend fun j h h' => ⟨hno j h h', hleast' j h h'⟩, hhit']

/-- What is found meets the definition exactly on the buffers where the windows agree. -/
theorem cutByContent_found_iff (checksumGen : List UInt8 → Checksum) (chunker : Chunker)
    (buffer : List UInt8) :
    CutByContent chunker buffer
        ((cutOf buffer).map fun n => chunkRefSet checksumGen (buffer.take n)) ↔
      WindowsAgree chunker buffer := by
  have hfound : ((cutOf buffer).map fun n => chunkRefSet checksumGen (buffer.take n)).map
      (fun chunkRef => chunkRef.buffer.length) = cutAt (fedHit buffer) buffer := by
    cases hcut : cutOf buffer with
    | none => exact hcut.symm
    | some n =>
        obtain ⟨-, -, hle⟩ := cutOf_bounds hcut
        have hlen : (buffer.take n).length = n := by
          rw [List.length_take, Nat.min_eq_left hle]
        calc _ = some (buffer.take n).length := rfl
          _ = some n := by rw [hlen]
          _ = cutAt (fedHit buffer) buffer := hcut.symm
  rw [cutByContent_iff, hfound, eq_comm, cutAt_eq_iff]
  rfl

/-- A chunker with nothing retained cuts by the content at the cut if and only if the windows agree. -/
theorem cuts_by_content_iff (checksumGen : List UInt8 → Checksum) (hready : chunker.Ready)
    (hempty : chunker.retainedSize = 0) (buffer : List UInt8) (s : Store) : ∃ found chunker',
      chunkerChunkBuffer checksumGen chunker buffer s = .ok (found, chunker') s ∧
      (CutByContent chunker buffer found ↔ WindowsAgree chunker buffer) := by
  obtain ⟨chunker', hrun, -, -, -⟩ := chunkerChunkBuffer_run checksumGen hready hempty buffer s
  exact ⟨_, chunker', hrun, cutByContent_found_iff checksumGen chunker buffer⟩

end

theorem contentHit_sampleChunk {chunker : Chunker} (h : chunker.Ready) (b : UInt8) :
    contentHit chunker (sampleChunk b) 2049 = true := by
  have hend : (sampleChunk b).drop (2049 - chunkerWindowWidth) =
      List.replicate 29 0 ++ [70, 113, 0] := by
    rw [show 2049 - chunkerWindowWidth = 2015 + 1 + 1 from rfl, sampleChunk, List.drop_succ_cons,
      List.drop_succ_cons]
    decide +kernel
  have hlong : chunkerWindowWidth ≤ (List.replicate 29 (0 : UInt8) ++ [70, 113, 0]).length := by
    decide
  obtain ⟨-, -, -, hhash⟩ := rollingHash2Reset_spec h hlong
  rw [contentHit, hend, hhash]
  decide +kernel

/-- A new chunker cuts a sample off, and that is what the content of the sample defines. -/
theorem cuts_by_content_iff_sample : ∃ chunker chunkRef chunker',
    chunkerInit ⟨fun _ => 0, []⟩ = .ok chunker ⟨fun _ => 0, []⟩ ∧
    chunkerChunkBuffer (fun _ => ⟨List.replicate 32 0, by simp⟩) chunker (sampleChunk 1)
      ⟨fun _ => 0, []⟩ = .ok (some chunkRef, chunker') ⟨fun _ => 0, []⟩ ∧
    chunkRef.buffer.length = 2049 ∧ CutByContent chunker (sampleChunk 1) (some chunkRef) := by
  obtain ⟨chunker, hinit, hready, hempty⟩ := chunkerInit_run ⟨fun _ => 0, []⟩
  obtain ⟨found, chunker', hrun, hiff⟩ := cuts_by_content_iff
    (fun _ => ⟨List.replicate 32 0, by simp⟩) hready hempty (sampleChunk 1) ⟨fun _ => 0, []⟩
  obtain ⟨chunker'', hrun', -, -, -⟩ := chunkerChunkBuffer_run
    (fun _ => ⟨List.replicate 32 0, by simp⟩) hready hempty (sampleChunk 1) ⟨fun _ => 0, []⟩
  have hfound := (EStateM.Result.ok.inj (hrun.symm.trans hrun')).1
  rw [cutOf_sampleChunk, Option.map_some, Prod.mk.injEq] at hfound
  obtain ⟨rfl, rfl⟩ := hfound
  refine ⟨chunker, _, _, hinit, hrun, ?_, hiff.2 ?_⟩
  · show ((sampleChunk 1).take 2049).length = 2049
    rw [List.length_take, sampleChunk_length, Nat.min_self]
  · -- the search has one offset only, and both windows trigger there
    intro d hlo hhi _ _
    rw [searchLength_sampleChunk] at hhi
    obtain rfl : d = 1 := by omega
    rw [fedHit_sampleChunk]
    exact contentHit_sampleChunk hready 1

/-- 2047 zeros and two bytes: the window that ends with them triggers, but the search is never at it. -/
def missedBuffer : List UInt8 := List.replicate 2047 0 ++ [13, 239]

theorem contentHit_missedBuffer {chunker : Chunker} (h : chunker.Ready) :
    contentHit chunker missedBuffer 2049 = true := by
  have hlong : chunkerWindowWidth ≤ (missedBuffer.drop (2049 - chunkerWindowWidth)).length := by
    decide +kernel
  obtain ⟨-, -, -, hhash⟩ := rollingHash2Reset_spec h hlong
  rw [contentHit, hhash]
  decide +kernel

theorem fedHit_missedBuffer : fedHit missedBuffer 1 = false := by decide +kernel

/-- A new chunker does not find the chunk of 2049 bytes that the content of the buffer defines. -/
theorem content_cut_missed : ∃ chunker found chunker',
    chunkerInit ⟨fun _ => 0, []⟩ = .ok chunker ⟨fun _ => 0, []⟩ ∧
    chunkerChunkBuffer (fun _ => ⟨List.replicate 32 0, by simp⟩) chunker missedBuffer
      ⟨fun _ => 0, []⟩ = .ok (found, chunker') ⟨fun _ => 0, []⟩ ∧
    ContentCut chunker missedBuffer 2049 ∧ ¬ CutByContent chunker missedBuffer found := by
  obtain ⟨chunker, hinit, hready, hempty⟩ := chunkerInit_run ⟨fun _ => 0, []⟩
  obtain ⟨chunker', hrun, -, -, -⟩ := chunkerChunkBuffer_run
    (fun _ => ⟨List.replicate 32 0, by simp⟩) hready hempty missedBuffer ⟨fun _ => 0, []⟩
  have hhit := contentHit_missedBuffer hready
  have hlength : missedBuffer.length = 2049 := by decide +kernel
  refine ⟨chunker, _, chunker', hinit, hrun, ?_, ?_⟩
  · rw [ContentCut, hlength]
    exact ⟨by decide, by decide, hhit⟩
  · rw [cutByContent_found_iff]
    intro hagree
    have hone := hagree 1 (by omega) (by rw [searchLength, hlength]; decide) (by decide)
      (fun d' h h' => by omega)
    rw [fedHit_missedBuffer] at hone
    exact Bool.false_ne_true (hone.symm.trans hhit)

end Theo
