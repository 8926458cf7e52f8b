import Mathlib.Data.List.InsertIdx
import OpenWindows.Htl.Coherence

/-!
# The operations of the block cache

One lemma for each operation: it keeps the invariant, and says which arrays the context then
stands for.  A flush writes one entry after the other, and each turn keeps the invariant whether
the driver fails or not.
-/

namespace Htl

open WriteBack

variable {C C' : Context} {A : Arrays} {d b : Nat} {st : HtlStatus}

/-! ## Reads -/

theorem htlReadCached_spec (h : Inv C A) {buf : Bool} {drv : HtlStatus} {r : Option Block}
    (hread : htlReadCached C d b buf drv = (st, r, C')) :
    Inv C' A ∧ (st = htlOk → ∃ data, r = some data ∧ A.block (d, b) = some data) := by
  unfold htlReadCached at hread
  split at hread
  · cases hread
    exact ⟨h, nofun⟩
  · next dev hdev =>
    obtain ⟨hlt, hsmall⟩ := h.small hdev
    split at hread
    · cases hread
      exact ⟨h, nofun⟩
    · split at hread
      · cases hread
        exact ⟨h, nofun⟩
      · split at hread
        · cases hread
          exact ⟨h, nofun⟩
        · dsimp only at hread
          rcases cacheFind_cases (b := b) h.within h.capacity hsmall with
            ⟨i, e, hi, he, hvalid, hkey⟩ | ⟨hi, hmiss⟩
          · rw [hi, if_pos (Int.natCast_nonneg i)] at hread
            cases hread
            refine ⟨h.of_cache h.coherent ⟨h.within.below, h.within.count_le⟩ rfl rfl, fun _ => ?_⟩
            have hline : lines C.cache.entries i = some ⟨(d, b), some e.data, e.dirty⟩ := by
              rw [lines_of_getElem? he, CacheEntry.line_of_valid hvalid, hkey]
            rw [Int.toNat_natCast, he]
            exact ⟨e.data, rfl, h.coherent.held hline⟩
          · rw [hi, if_neg (by decide)] at hread
            have hw : Cache.Within { C.cache with misses := satAddU64 C.cache.misses 1 } :=
              ⟨h.within.below, h.within.count_le⟩
            split at hread
            · next hfail =>
              cases hread
              refine ⟨?_, fun hok => absurd hok hfail⟩
              apply Inv.account
              exact h.of_cache h.coherent hw rfl rfl
            · cases hread
              have hblock : A.block (d, b) = some (dev.store b) := by
                rw [← h.coherent.of_misses hmiss, stores_block hdev]
              refine ⟨?_, fun _ => ⟨dev.store b, rfl, hblock⟩⟩
              apply Inv.account
              rcases cacheInsert_cases hw d b (dev.store b) (nextOrder C.accessCounter) with
                ⟨st, hfail, -⟩ | ⟨i, c', hok, hi, hfree, hcount, hle, hcap, hset⟩
              · rw [hfail]
                exact h.of_cache h.coherent hw rfl rfl
              · rw [hok]
                obtain ⟨entries, n, hits, misses⟩ := c'
                dsimp only at hset hcount hle hcap
                subst hset
                refine h.of_cache ?_ (hw.set hcount hle hcap hits misses) (List.length_set ..) rfl
                dsimp only
                rw [lines_set hi, CacheEntry.line_of_valid rfl, Nat.mod_eq_of_lt hsmall]
                have hfill := h.coherent.fill hmiss hfree
                rw [stores_block hdev] at hfill
                exact hfill

/-! ## Writes -/

theorem Arrays.length_write (A : Arrays) (d b : Nat) (data : Block) :
    (A.write d b data).length = A.length := List.length_modify ..

variable {data : Block}

theorem cacheFind_inserted {c c' : Cache} {i order : Nat} (hw : c'.Within)
    (hcap : c'.entries.length ≤ 2 ^ 31) (hd : d < 2 ^ 8) (hmiss : Misses (lines c.entries) (d, b))
    (hi : i < c.entries.length)
    (hset : c'.entries = c.entries.set i ⟨b, false, true, d, order, data⟩) :
    cacheFind c' d b = i := by
  have hline : lines c'.entries i = some ⟨(d, b), some data, false⟩ := by
    rw [hset, lines_set hi, Function.update_self]
    rfl
  rcases cacheFind_cases (b := b) hw hcap hd with ⟨j, e, hj, he, hvalid, hkey⟩ | ⟨-, hmiss'⟩
  · rw [hj]
    by_contra hne
    have hij : j ≠ i := fun h => hne (congrArg Nat.cast h)
    have hjline : lines c.entries j = some ⟨(d, b), some e.data, e.dirty⟩ := by
      rw [← CacheEntry.line_key hvalid hkey, ← lines_of_getElem? he, hset, lines_set hi,
        Function.update_of_ne hij]
    exact hmiss j _ hjline rfl
  · exact absurd rfl (hmiss' i _ hline)

theorem markDirty_inserted {c c' : Cache} {i order : Nat} (hw : c'.Within)
    (hcap : c'.entries.length ≤ 2 ^ 31) (hd : d < 2 ^ 8) (hmiss : Misses (lines c.entries) (d, b))
    (hi : i < c.entries.length)
    (hset : c'.entries = c.entries.set i ⟨b, false, true, d, order, data⟩) :
    c'.markDirty (cacheFind c' d b) =
      { c' with entries := c.entries.set i ⟨b, true, true, d, order, data⟩ } := by
  have hget : c'.entries[i]? = some ⟨b, false, true, d, order, data⟩ := by
    rw [hset, List.getElem?_set_self hi]
  rw [cacheFind_inserted hw hcap hd hmiss hi hset, Cache.markDirty,
    if_pos (Int.natCast_nonneg i), Int.toNat_natCast, modify_eq_set hget, hset, List.set_set]

theorem htlWriteCached_null (hwrite : htlWriteCached C d b none = (st, C')) :
    st ≠ htlOk ∧ C' = C := by
  unfold htlWriteCached at hwrite
  split at hwrite
  · cases hwrite
    exact ⟨by decide, rfl⟩
  · cases hwrite
    exact ⟨by decide, rfl⟩

theorem htlWriteCached_spec (h : Inv C A) (hwrite : htlWriteCached C d b (some data) = (st, C')) :
    (st = htlOk ∧ d < A.length ∧ Inv C' (A.write d b data)) ∨ (st ≠ htlOk ∧ Inv C' A) := by
  unfold htlWriteCached at hwrite
  split at hwrite
  · cases hwrite
    exact .inr ⟨by decide, h⟩
  · next dev hdev =>
    obtain ⟨hlt, hsmall⟩ := h.small hdev
    have hlen : d < A.length := h.devices ▸ hlt
    dsimp only at hwrite
    split at hwrite
    · cases hwrite
      exact .inr ⟨by decide, h⟩
    · split at hwrite
      · cases hwrite
        exact .inr ⟨by decide, h⟩
      · split at hwrite
        · cases hwrite
          exact .inr ⟨by decide, h⟩
        · have hblock := Arrays.block_write b data hlen
          have hlength := Arrays.length_write A d b data
          rcases cacheFind_cases (b := b) h.within h.capacity hsmall with
            ⟨i, e, hi, he, hvalid, hkey⟩ | ⟨hi, hmiss⟩
          · rw [hi, if_pos (Int.natCast_nonneg i), Int.toNat_natCast, modify_eq_set he] at hwrite
            cases hwrite
            refine .inl ⟨rfl, hlen, ?_⟩
            apply Inv.account
            have hlti : i < C.cache.entries.length := (List.getElem?_eq_some_iff.1 he).1
            have hline := CacheEntry.line_key hvalid hkey
            have hnew := CacheEntry.line_key
              (e := ⟨e.blockNum, true, e.valid, e.deviceIdx, C.accessCounter, data⟩) hvalid hkey
            refine h.of_cache ?_ (h.within.set (h.within.below he hvalid) (Nat.le_refl _)
              h.within.count_le _ _) (List.length_set ..) hlength
            dsimp only at hnew ⊢
            rw [lines_set hlti, hnew, hblock]
            exact h.coherent.put (some data) (.inl ⟨_, (lines_of_getElem? he).trans hline, rfl⟩)
          · rw [hi, if_neg (by decide)] at hwrite
            rcases cacheInsert_cases h.within d b data (nextOrder C.accessCounter) with
              ⟨st', hfail, hne⟩ | ⟨i, c', hok, hlti, hfree, hcount, hle, hcap, hset⟩
            · rw [hfail] at hwrite
              dsimp only at hwrite
              rw [if_pos hne] at hwrite
              cases hwrite
              exact .inr ⟨hne, h.of_cache h.coherent h.within rfl rfl⟩
            · rw [hok] at hwrite
              dsimp only at hwrite
              rw [if_neg (by decide)] at hwrite
              cases hwrite
              refine .inl ⟨rfl, hlen, ?_⟩
              apply Inv.account
              rw [Nat.mod_eq_of_lt hsmall] at hset
              have hlen' : c'.entries.length = C.cache.entries.length := by
                rw [hset, List.length_set]
              have hw' : c'.Within := by
                have hw := h.within.set (e := ⟨b, false, true, d, nextOrder C.accessCounter, data⟩)
                  hcount hle hcap c'.hits c'.misses
                rw [← hset] at hw
                exact hw
              rw [markDirty_inserted hw' (hlen' ▸ h.capacity) hsmall hmiss hlti hset]
              refine h.of_cache ?_ (h.within.set hcount hle hcap c'.hits c'.misses)
                (List.length_set ..) hlength
              dsimp only
              rw [lines_set hlti, CacheEntry.line_of_valid rfl, hblock]
              exact h.coherent.put (some data) (.inr ⟨hmiss, hfree⟩)

/-! ## Flushes -/

section Flush

variable {drv : Nat → HtlStatus}

/-- The turns of a flush up to entry `n`: no error so far means that the entries in front hold
nothing that the device lacks. -/
structure Flushing (A : Arrays) (d cap n : Nat) (acc : Context × HtlStatus) : Prop where
  inv : Inv acc.1 A
  length : acc.1.cache.entries.length = cap
  clean : acc.2 = htlOk → ∀ i < n, ∀ e, acc.1.cache.entries[i]? = some e → e.valid = true →
    e.dirty = true → e.deviceIdx ≠ d

variable {acc : Context × HtlStatus}

theorem flushing_skip {cap n : Nat} (h : Flushing A d cap n acc)
    (hn : ∀ e, acc.1.cache.entries[n]? = some e → e.valid = true → e.dirty = true →
      e.deviceIdx ≠ d) : Flushing A d cap (n + 1) acc where
  inv := h.inv
  length := h.length
  clean hok i hi := by
    rcases Nat.lt_succ_iff_lt_or_eq.1 hi with hlt | rfl
    · exact h.clean hok i hlt
    · exact hn

theorem Inv.writeBack (h : Inv C A) {i : Nat} {e : CacheEntry} (he : C.cache.entries[i]? = some e)
    (hvalid : e.valid = true) :
    Inv { C with
      devices := C.devices.modify e.deviceIdx fun dev =>
        { dev with store := Function.update dev.store e.blockNum e.data }
      cache := { C.cache with entries := C.cache.entries.set i { e with dirty := false } } } A := by
  have hlt : i < C.cache.entries.length := (List.getElem?_eq_some_iff.1 he).1
  have hline := (lines_of_getElem? he).trans (CacheEntry.line_of_valid hvalid)
  have hdev : e.deviceIdx < (stores C.devices).length := by
    have hheld := Arrays.lt_of_block (h.coherent.held hline)
    rw [stores, List.length_map, ← h.devices]
    exact hheld
  have hnew := CacheEntry.line_of_valid (e := { e with dirty := false }) hvalid
  have hwithin := h.within.set (e := { e with dirty := false }) (h.within.below he hvalid)
    (Nat.le_refl _) h.within.count_le C.cache.hits C.cache.misses
  refine ⟨?_, hwithin, ?_, ?_, ?_, full_modify h.full _ fun _ hfull => hfull⟩
  · dsimp only at hnew ⊢
    rw [lines_set hlt, hnew, stores_write, Arrays.block_write _ _ hdev]
    exact h.coherent.clean hline
  · dsimp only
    rw [List.length_set]
    exact h.capacity
  · dsimp only
    rw [List.length_modify]
    exact h.devices
  · dsimp only
    rw [List.length_modify]
    exact h.few

theorem flushEntry_flushing {cap n : Nat} (hd : d < 2 ^ 8)
    (h : Flushing A d cap n acc) : Flushing A d cap (n + 1) (flushEntry drv d acc n) := by
  unfold flushEntry
  split
  · next hnone =>
    apply flushing_skip h
    intro e he
    rw [hnone] at he
    cases he
  · next e he =>
    split
    · next hmatch =>
      rw [Nat.mod_eq_of_lt hd, Bool.and_eq_true, Bool.and_eq_true, beq_iff_eq] at hmatch
      obtain ⟨⟨hvalid, -⟩, rfl⟩ := hmatch
      split
      · next hfail => exact ⟨h.inv.account _ _, h.length, fun hok => absurd hok hfail⟩
      · refine ⟨h.inv.writeBack he hvalid, (List.length_set ..).trans h.length, ?_⟩
        intro hok i hi e' he' hvalid' hdirty'
        dsimp only at he'
        by_cases hin : n = i
        · subst hin
          rw [List.getElem?_set_self (List.getElem?_eq_some_iff.1 he).1] at he'
          cases he'
          cases hdirty'
        · rw [List.getElem?_set_ne hin] at he'
          exact h.clean hok i (by omega) e' he' hvalid' hdirty'
    · next hmatch =>
      apply flushing_skip h
      intro e' he' hvalid hdirty hdev
      rw [he] at he'
      cases he'
      rw [Nat.mod_eq_of_lt hd, hvalid, hdirty, hdev] at hmatch
      simp at hmatch

theorem flush_flushing (hd : d < 2 ^ 8) (h : Inv C A) (n : Nat) :
    Flushing A d C.cache.entries.length n
      ((List.range n).foldl (flushEntry drv d) (C, htlOk)) := by
  induction n with
  | zero => exact ⟨h, rfl, fun _ i hi => absurd hi (Nat.not_lt_zero i)⟩
  | succ n ih =>
    rw [List.range_succ, List.foldl_concat]
    exact flushEntry_flushing hd ih

theorem Flushing.stored {cap : Nat} (h : Flushing A d cap cap acc)
    (hd : d < A.length) (hok : acc.2 = htlOk) :
    ∃ f dev, A[d]? = some f ∧ acc.1.devices[d]? = some dev ∧ ∀ b, dev.store b = f b := by
  have hdev : d < acc.1.devices.length := h.inv.devices ▸ hd
  refine ⟨A[d], acc.1.devices[d], List.getElem?_eq_getElem hd, List.getElem?_eq_getElem hdev, ?_⟩
  intro b
  have hblock := h.inv.coherent.of_clean (k := (d, b)) fun i l hl hdirty hkey => by
    obtain ⟨e, he, hvalid, rfl⟩ := lines_eq_some hl
    have hlt : i < cap := h.length ▸ (List.getElem?_eq_some_iff.1 he).1
    exact h.clean hok i hlt e he hvalid hdirty (Prod.mk.inj hkey).1
  rw [stores_block (List.getElem?_eq_getElem hdev)] at hblock
  unfold Arrays.block at hblock
  rw [List.getElem?_eq_getElem hd] at hblock
  exact Option.some.inj hblock

theorem htlFlushDeviceCache_spec (h : Inv C A) {drvFlush : HtlStatus}
    (hflush : htlFlushDeviceCache C d drv drvFlush = (st, C')) :
    Inv C' A ∧ (st = htlOk →
      ∃ f dev, A[d]? = some f ∧ C'.devices[d]? = some dev ∧ ∀ b, dev.store b = f b) := by
  unfold htlFlushDeviceCache at hflush
  split at hflush
  · cases hflush
    exact ⟨h, nofun⟩
  · next dev hdev =>
    obtain ⟨hlt, hsmall⟩ := h.small hdev
    split at hflush
    · cases hflush
      exact ⟨h, nofun⟩
    · have hdone := @flush_flushing C A d drv hsmall h C.cache.entries.length
      generalize (List.range C.cache.entries.length).foldl (flushEntry drv d) (C, htlOk) = acc
        at hdone hflush
      dsimp only at hflush
      split at hflush
      · next hfail =>
        cases hflush
        exact ⟨(hdone.inv.account d _).account d _, fun hok => absurd hok hfail.2⟩
      · cases hflush
        refine ⟨hdone.inv.account d _, fun hok => ?_⟩
        obtain ⟨f, dev', hf, hdev', hsame⟩ := hdone.stored (h.devices ▸ hlt) hok
        refine ⟨f, { dev' with stats := dev'.stats.addFlush }, hf, ?_, hsame⟩
        rw [Context.account, List.getElem?_modify, hdev']
        simp

end Flush

/-! ## Registration -/

theorem stores_append (devices : List Device) (dev : Device) :
    stores (devices ++ [dev]) = stores devices ++ [dev.store] := by
  rw [stores, List.map_append]
  rfl

/-- A device of `HTL_CACHE_DATA_SIZE` blocks is registered. -/
def Registration.Full (r : Registration) : Prop :=
  r.blockSize = htlCacheDataSize ∧ r.totalBlocks < 2 ^ 32

theorem htlRegisterDevice_spec (h : Inv C A) {r : Registration}
    (hfull : r.Full) (hreg : htlRegisterDevice C r = (st, C')) :
    (st = htlOk ∧ Inv C' (A ++ [r.store])) ∨ (st ≠ htlOk ∧ C' = C) := by
  unfold htlRegisterDevice at hreg
  split at hreg
  · cases hreg
    exact .inr ⟨by decide, rfl⟩
  · split at hreg
    · cases hreg
      exact .inr ⟨by decide, rfl⟩
    · split at hreg
      · cases hreg
        exact .inr ⟨by decide, rfl⟩
      · next hfew =>
        cases hreg
        refine .inl ⟨rfl, ?_, ⟨h.within.below, h.within.count_le⟩, h.capacity, ?_, ?_, ?_⟩
        · have hlen : (stores C.devices).length = A.length := by
            rw [stores, List.length_map, h.devices]
          rw [stores_append]
          apply h.coherent.extend
          intro k
          by_cases hk : k.1 = A.length
          · refine .inr ⟨?_, ?_⟩
            · intro i l hl hkey
              obtain ⟨e, -, -, rfl⟩ := lines_eq_some hl
              have hlt := Arrays.lt_of_block (h.coherent.held hl)
              rw [hkey] at hlt
              exact Nat.lt_irrefl _ (hk ▸ hlt)
            · obtain ⟨d, b⟩ := k
              dsimp only at hk
              subst hk
              rw [Arrays.block_append_self, ← hlen, Arrays.block_append_self]
          · refine .inl ⟨Arrays.block_append_of_ne _ ?_, Arrays.block_append_of_ne _ hk⟩
            rw [hlen]
            exact hk
        · rw [List.length_append, List.length_append, h.devices]
          rfl
        · rw [List.length_append]
          exact Nat.lt_of_not_le hfew
        · intro dev hdev
          rcases List.mem_append.1 hdev with hdev | hdev
          · exact h.full dev hdev
          · cases List.mem_singleton.1 hdev
            exact hfull

/-! ## Removal -/

/-- Where a key goes when device `d` is removed. -/
def moved (d : Nat) (k : Key) : Option Key :=
  if k.1 = d then none else if d < k.1 then some (k.1 - 1, k.2) else some k

theorem moved_inj {k₁ k₂ k : Key} (h₁ : moved d k₁ = some k) (h₂ : moved d k₂ = some k) :
    k₁ = k₂ := by
  obtain ⟨d₁, b₁⟩ := k₁
  obtain ⟨d₂, b₂⟩ := k₂
  unfold moved at h₁ h₂
  dsimp only at h₁ h₂
  split at h₁
  · cases h₁
  · split at h₂
    · cases h₂
    · split at h₁
      · split at h₂
        · have heq := Option.some.inj (h₁.trans h₂.symm)
          rw [Prod.mk.injEq] at heq ⊢
          omega
        · cases h₁
          cases h₂
          omega
      · split at h₂
        · cases h₁
          cases h₂
          omega
        · cases h₁
          cases h₂
          rfl

theorem block_moved (A : Arrays) {k k' : Key} (h : moved d k = some k') :
    Arrays.block (A.eraseIdx d) k' = A.block k := by
  unfold moved at h
  rw [Arrays.block_eraseIdx]
  split at h
  · cases h
  · split at h
    · next hlt =>
      cases h
      dsimp only
      rw [if_neg (by omega), Nat.sub_add_cancel (by omega)]
    · cases h
      rw [if_pos (by omega)]

theorem moved_surj (k' : Key) : ∃ k, moved d k = some k' := by
  obtain ⟨d', b⟩ := k'
  by_cases h : d' < d
  · refine ⟨(d', b), ?_⟩
    unfold moved
    dsimp only
    rw [if_neg (by omega), if_neg (by omega)]
  · refine ⟨(d' + 1, b), ?_⟩
    unfold moved
    dsimp only
    rw [if_neg (by omega), if_pos (by omega), Nat.add_sub_cancel]

/-- The entry after the devices in `(d, d + n]` moved down. -/
def CacheEntry.shift (count d n i : Nat) (e : CacheEntry) : CacheEntry :=
  if i < count ∧ e.valid = true ∧ d < e.deviceIdx ∧ e.deviceIdx ≤ d + n then
    { e with deviceIdx := e.deviceIdx - 1 }
  else e

theorem getElem?_renumbered {count n : Nat} (es : List CacheEntry) (hd : d + n < 2 ^ 8) (i : Nat) :
    (renumbered count d n es)[i]? = es[i]?.map (CacheEntry.shift count d n i) := by
  induction n with
  | zero =>
    rw [renumbered]
    cases es[i]? with
    | none => rfl
    | some e =>
      rw [Option.map_some, CacheEntry.shift, if_neg (by omega)]
  | succ n ih =>
    rw [renumbered, renumber, List.getElem?_mapIdx, ih (by omega)]
    cases es[i]? with
    | none => rfl
    | some e =>
      rw [Option.map_some, Option.map_some, Option.map_some, Option.some.injEq,
        Nat.mod_eq_of_lt (show d + 1 + n < 2 ^ 8 by omega),
        Nat.mod_eq_of_lt (show d + n < 2 ^ 8 by omega)]
      by_cases hin : i < count ∧ e.valid = true
      · obtain ⟨hi, hvalid⟩ := hin
        by_cases hbefore : d < e.deviceIdx ∧ e.deviceIdx ≤ d + n
        · have hshift : e.shift count d n i = { e with deviceIdx := e.deviceIdx - 1 } :=
            if_pos ⟨hi, hvalid, hbefore⟩
          have hshift' : e.shift count d (n + 1) i = { e with deviceIdx := e.deviceIdx - 1 } :=
            if_pos ⟨hi, hvalid, hbefore.1, by omega⟩
          rw [hshift, hshift', if_neg]
          rintro ⟨-, -, hsrc⟩
          dsimp only at hsrc
          omega
        · have hshift : e.shift count d n i = e := if_neg fun h => hbefore h.2.2
          rw [hshift]
          by_cases hnow : e.deviceIdx = d + 1 + n
          · have hshift' : e.shift count d (n + 1) i =
                { e with deviceIdx := e.deviceIdx - 1 } :=
              if_pos ⟨hi, hvalid, by omega, by omega⟩
            rw [if_pos ⟨hi, hvalid, hnow⟩, hshift', hnow]
            congr 1
            omega
          · have hshift' : e.shift count d (n + 1) i = e := if_neg fun h => by omega
            rw [if_neg fun h => hnow h.2.2, hshift']
      · have hshift : ∀ m, e.shift count d m i = e :=
          fun m => if_neg fun h => hin ⟨h.1, h.2.1⟩
        rw [hshift, hshift, if_neg fun h => hin ⟨h.1, h.2.1⟩]

theorem line_removed {count n i : Nat} {e : CacheEntry} (hd : d < 2 ^ 8)
    (hi : e.valid = true → i < count) (hdev : e.valid = true → e.deviceIdx ≤ d + n) :
    ((e.invalidate d).shift count d n i).line = e.line.bind (Line.rekey (moved d)) := by
  cases hvalid : e.valid with
  | false =>
    have hsame : e.invalidate d = e := by
      rw [CacheEntry.invalidate, hvalid]
      rfl
    have hshift : e.shift count d n i = e :=
      if_neg fun h => Bool.false_ne_true (hvalid.symm.trans h.2.1)
    have hline : e.line = none := if_neg (by rw [hvalid]; exact Bool.false_ne_true)
    rw [hsame, hshift, hline]
    rfl
  | true =>
    rw [CacheEntry.line_of_valid hvalid, Option.bind_some, Line.rekey]
    by_cases heq : e.deviceIdx = d
    · have hgone : e.invalidate d = { e with valid := false, dirty := false } := by
        rw [CacheEntry.invalidate, hvalid, heq, Nat.mod_eq_of_lt hd, beq_self_eq_true]
        rfl
      have hshift : (e.invalidate d).shift count d n i = e.invalidate d := by
        rw [hgone]
        exact if_neg fun h => Bool.false_ne_true h.2.1
      have hmoved : moved d (e.deviceIdx, e.blockNum) = none := if_pos heq
      rw [hshift, hgone, hmoved]
      rfl
    · have hsame : e.invalidate d = e := by
        rw [CacheEntry.invalidate, hvalid, Nat.mod_eq_of_lt hd, beq_eq_false_iff_ne.2 heq]
        rfl
      rw [hsame]
      by_cases hlt : d < e.deviceIdx
      · have hshift : e.shift count d n i = { e with deviceIdx := e.deviceIdx - 1 } :=
          if_pos ⟨hi hvalid, hvalid, hlt, hdev hvalid⟩
        have hmoved : moved d (e.deviceIdx, e.blockNum) = some (e.deviceIdx - 1, e.blockNum) :=
          (if_neg heq).trans (if_pos hlt)
        rw [hshift, hmoved]
        exact CacheEntry.line_of_valid hvalid
      · have hshift : e.shift count d n i = e := if_neg fun h => hlt h.2.2.1
        have hmoved : moved d (e.deviceIdx, e.blockNum) = some (e.deviceIdx, e.blockNum) :=
          (if_neg heq).trans (if_neg hlt)
        rw [hshift, hmoved]
        exact CacheEntry.line_of_valid hvalid

theorem lines_removed (h : Inv C A) (hd : d < C.devices.length) :
    lines (renumbered C.cache.count d (C.devices.length - d - 1)
      (C.cache.entries.map (CacheEntry.invalidate d))) =
      fun i => (lines C.cache.entries i).bind (Line.rekey (moved d)) := by
  have hfew := h.few
  rw [htlMaxDevices] at hfew
  funext i
  unfold lines
  rw [getElem?_renumbered _ (by omega), List.getElem?_map]
  cases he : C.cache.entries[i]? with
  | none => rfl
  | some e =>
    rw [Option.map_some, Option.map_some, Option.bind_some, Option.bind_some]
    refine line_removed (by omega) (h.within.below he) fun hvalid => ?_
    have hline := (lines_of_getElem? he).trans (CacheEntry.line_of_valid hvalid)
    have hlt := Arrays.lt_of_block (h.coherent.held hline)
    rw [h.devices] at hlt
    dsimp only at hlt
    omega

theorem length_renumbered (count d n : Nat) (es : List CacheEntry) :
    (renumbered count d n es).length = es.length := by
  induction n with
  | zero => rfl
  | succ n ih => rw [renumbered, renumber, List.length_mapIdx, ih]

theorem htlUnregisterDevice_spec (h : Inv C A) (hun : htlUnregisterDevice C d = (st, C')) :
    (st = htlOk ∧ Inv C' (A.eraseIdx d)) ∨ (st ≠ htlOk ∧ C' = C) := by
  unfold htlUnregisterDevice at hun
  split at hun
  · cases hun
    exact .inr ⟨by decide, rfl⟩
  · next hd =>
    have hd : d < C.devices.length := Nat.lt_of_not_le hd
    have hinvalid : htlInvalidateCache C d = (htlOk, { C with cache := { C.cache with
        entries := C.cache.entries.map (CacheEntry.invalidate d) } }) :=
      if_neg (Nat.not_le.2 hd)
    rw [hinvalid] at hun
    cases hun
    refine .inl ⟨rfl, ?_, ⟨?_, ?_⟩, ?_, ?_, ?_, ?_⟩
    · dsimp only
      rw [lines_removed h hd, stores, ← List.eraseIdx_map]
      exact h.coherent.rekey moved_inj
        (fun k k' hk => ⟨block_moved _ hk, block_moved A hk⟩)
        (fun k' hnone => absurd (moved_surj k').choose_spec (hnone _))
    · intro i e he hvalid
      have hline : ∃ l, lines (renumbered C.cache.count d (C.devices.length - d - 1)
          (C.cache.entries.map (CacheEntry.invalidate d))) i = some l :=
        ⟨_, (lines_of_getElem? he).trans (CacheEntry.line_of_valid hvalid)⟩
      obtain ⟨l, hl⟩ := hline
      rw [lines_removed h hd] at hl
      obtain ⟨l', hl', -⟩ := Option.bind_eq_some_iff.1 hl
      obtain ⟨e', he', hvalid', -⟩ := lines_eq_some hl'
      exact h.within.below he' hvalid'
    · dsimp only
      rw [length_renumbered, List.length_map]
      exact h.within.count_le
    · dsimp only
      rw [length_renumbered, List.length_map]
      exact h.capacity
    · dsimp only
      rw [List.length_eraseIdx, List.length_eraseIdx, h.devices]
    · dsimp only
      exact Nat.le_trans (List.length_eraseIdx_le ..) h.few
    · intro dev hdev
      exact h.full dev (List.mem_of_mem_eraseIdx hdev)

end Htl
