import Theo.Cache.Calls
import Theo.Model.CacheManager

set_option autoImplicit false

/-! # The calls of a cache manager

A call of a cache manager is noted in the log and is the call of its cache. Releasing the cells stores
nothing. -/

namespace Theo

open ByteMachine

variable {base n : Nat} {s s' : Store} {rings : Nat → Ring} {cacheManager : CacheManager}

theorem cacheManagerHasChunk_run (hcache : cacheManager.cache = cacheAt base n)
    (h : CacheHolds s.mem base n rings) (hn : 1 ≤ n) (c : Checksum) :
    cacheManagerHasChunk cacheManager c s =
      .ok ((rings (c.part % n)).lookup c).isSome (s.emit (.mark (.hasChunk c.bytes))) := by
  have hmarked : CacheHolds (s.emit (.mark (.hasChunk c.bytes))).mem base n rings := h
  rw [cacheManagerHasChunk, emit_bind, hcache, cacheHasChunk_run hmarked hn]

theorem cacheManagerGetChunk_run (hcache : cacheManager.cache = cacheAt base n)
    (h : CacheHolds s.mem base n rings) (hn : 1 ≤ n) (c : Checksum) (chunk : Chunk) :
    cacheManagerGetChunk cacheManager c chunk s =
      .ok (fetched c chunk ((rings (c.part % n)).lookup c)) s := by
  rw [cacheManagerGetChunk, hcache, cacheGetChunk_run h hn]

theorem cacheManagerAddChunk_run (hcache : cacheManager.cache = cacheAt base n)
    (h : CacheHolds s.mem base n rings) (hn : 1 ≤ n) {c : Checksum} {buffer : List UInt8}
    (hlo : 2049 ≤ buffer.length) (hhi : buffer.length ≤ 24576) {added : Bool}
    {r' : Ring} (hinsert : (rings (c.part % n)).insert c buffer = some (added, r')) :
    ∃ s', cacheManagerAddChunk cacheManager c buffer s = .ok added s' ∧
      CacheHolds s'.mem base n (Function.update rings (c.part % n) r') := by
  have hmarked : CacheHolds (s.emit (.mark (.addChunk c.bytes buffer))).mem base n rings := h
  rw [cacheManagerAddChunk, emit_bind, hcache]
  exact cacheAddChunk_run hmarked hn hlo hhi hinsert

theorem cacheManagerAddChunk_holds (hcache : cacheManager.cache = cacheAt base n)
    (h : CacheHolds s.mem base n rings) (hn : 1 ≤ n) {c : Checksum} {buffer : List UInt8}
    (hlo : 2049 ≤ buffer.length) (hhi : buffer.length ≤ 24576)
    {added : Bool} (hrun : cacheManagerAddChunk cacheManager c buffer s = .ok added s') :
    ∃ r', (rings (c.part % n)).insert c buffer = some (added, r') ∧
      CacheHolds s'.mem base n (Function.update rings (c.part % n) r') := by
  have hmarked : CacheHolds (s.emit (.mark (.addChunk c.bytes buffer))).mem base n rings := h
  rw [cacheManagerAddChunk, emit_bind, hcache] at hrun
  exact cacheAddChunk_holds hmarked hn hlo hhi hrun

theorem cacheReleaseLoop_run {cache : Cache} {i n : Nat} (h : i + n ≤ cache.cells.length)
    (s : Store) : cacheReleaseLoop cache i n s = .ok () s := by
  induction n generalizing i with
  | zero => rfl
  | succ n ih =>
      rw [cacheReleaseLoop, List.getElem?_eq_getElem (show i < cache.cells.length by omega)]
      exact ih (by omega)

theorem cacheReleaseLoop_outOfBounds {cache : Cache} {i n : Nat} (hi : i ≤ cache.cells.length)
    (h : cache.cells.length < i + n) (s : Store) :
    cacheReleaseLoop cache i n s = .error .outOfBounds s := by
  induction n generalizing i with
  | zero => exact absurd h (by omega)
  | succ n ih =>
      rw [cacheReleaseLoop]
      rcases Nat.lt_or_eq_of_le hi with hlt | rfl
      · rw [List.getElem?_eq_getElem hlt]
        exact ih hlt (by omega)
      · rw [List.getElem?_eq_none (Nat.le_refl _)]
        rfl

end Theo
