import OpenWindows.Htl.Operations
import OpenWindows.Lib.StepSystem

/-!
# The cached devices as plain arrays of blocks

`Runs` performs the operations of the cache in any order, and keeps beside the context one array
of blocks for each device, which a successful write changes at one block.  With a capacity of at
most `2 ^ 31` every read returns the block of the array, and a flush without an error brings the
array to the device.

`cache_find` returns an `int32_t`.  An entry at an index of `2 ^ 31` or more is found with a
negative index, which its callers take for a miss, so that what was written there is lost.
-/

namespace Htl

open WriteBack

/-! ## Sectors -/

def byteAt (f : Nat → Block) (n : Nat) : UInt8 :=
  (f (n / htlCacheDataSize)).bytes.getD (n % htlCacheDataSize) 0

def bytesFrom (f : Nat → Block) (start len : Nat) : List UInt8 :=
  (List.range len).map fun i => byteAt f (start + i)

theorem bytesFrom_add (f : Nat → Block) (start m n : Nat) :
    bytesFrom f start (m + n) = bytesFrom f start m ++ bytesFrom f (start + m) n := by
  unfold bytesFrom
  rw [List.range_add, List.map_append, List.map_map]
  congr 1
  apply List.map_congr_left
  intro i _
  rw [Function.comp_apply, Nat.add_assoc]

theorem bytesFrom_block (f : Nat → Block) (b : Nat) {off n : Nat} (h : off + n ≤ htlCacheDataSize) :
    bytesFrom f (b * htlCacheDataSize + off) n = ((f b).bytes.drop off).take n := by
  have hfull := (f b).full
  have hpos : 0 < htlCacheDataSize := by decide
  apply List.ext_getElem
  · rw [bytesFrom, List.length_map, List.length_range, List.length_take, List.length_drop, hfull]
    omega
  · intro i hi hi'
    rw [bytesFrom, List.length_map, List.length_range] at hi
    rw [List.getElem_take, List.getElem_drop]
    simp only [bytesFrom, List.getElem_map, List.getElem_range, byteAt]
    have hdiv : (b * htlCacheDataSize + off + i) / htlCacheDataSize = b := by
      rw [Nat.add_assoc, Nat.mul_comm, Nat.mul_add_div hpos, Nat.div_eq_of_lt (by omega),
        Nat.add_zero]
    have hmod : (b * htlCacheDataSize + off + i) % htlCacheDataSize = off + i := by
      rw [Nat.add_assoc, Nat.mul_comm, Nat.mul_add_mod, Nat.mod_eq_of_lt (by omega)]
    rw [hdiv, hmod]
    exact (List.getElem_eq_getD 0).symm

theorem bytesFrom_whole (f : Nat → Block) (b : Nat) :
    bytesFrom f (b * htlCacheDataSize) htlCacheDataSize = (f b).bytes := by
  have h := @bytesFrom_block f b 0 htlCacheDataSize (by omega)
  rw [Nat.add_zero, List.drop_zero, List.take_of_length_le (Nat.le_of_eq (f b).full)] at h
  exact h

section Sectors

variable {dev : Device} {drv : Nat → HtlStatus}

def sectorsPerBlock : Nat := 8

theorem piece_eq {lba toRead : Nat} (hto : toRead ≤ sectorsPerBlock - lba % sectorsPerBlock) :
    (if lba % sectorsPerBlock ≠ 0 ∨ toRead < sectorsPerBlock then
      ((dev.store (lba / sectorsPerBlock)).bytes.drop
        (lba % sectorsPerBlock * vipSectorSize)).take (toRead * vipSectorSize)
    else (dev.store (lba / sectorsPerBlock)).bytes) =
      bytesFrom dev.store (lba * vipSectorSize) (toRead * vipSectorSize) := by
  have hstart : lba * vipSectorSize = lba / sectorsPerBlock * htlCacheDataSize +
      lba % sectorsPerBlock * vipSectorSize := by
    rw [sectorsPerBlock, vipSectorSize, htlCacheDataSize]
    omega
  have hlt : lba % sectorsPerBlock < sectorsPerBlock := Nat.mod_lt _ (by decide)
  split
  · rw [hstart, bytesFrom_block]
    rw [sectorsPerBlock] at hto hlt ⊢
    rw [vipSectorSize, htlCacheDataSize]
    omega
  · next hwhole =>
    rw [not_or, not_not, Nat.not_lt] at hwhole
    have hto' : toRead = sectorsPerBlock := by omega
    rw [hstart, hwhole.1, hto', Nat.zero_mul, Nat.add_zero]
    exact (bytesFrom_whole dev.store _).symm

theorem readSectorsLoop_ok (hdev : dev.Full) {n remaining calls lba : Nat} {out out' : List UInt8}
    (hn : remaining ≤ n) (hrange : lba + remaining ≤ dev.totalBlocks * sectorsPerBlock)
    (h : readSectorsLoop dev drv n remaining calls lba out = .ok out') :
    out' = out ++ bytesFrom dev.store (lba * vipSectorSize) (remaining * vipSectorSize) := by
  have hspb : dev.blockSize / vipSectorSize = sectorsPerBlock := by
    rw [hdev.1]
    rfl
  have htotal := hdev.2
  rw [sectorsPerBlock] at hrange
  induction n generalizing remaining calls lba out with
  | zero =>
    cases Nat.le_zero.1 hn
    cases h
    rw [Nat.zero_mul]
    exact (List.append_nil _).symm
  | succ n ih =>
    rw [readSectorsLoop] at h
    split at h
    · next hzero =>
      cases h
      rw [hzero, Nat.zero_mul]
      exact (List.append_nil _).symm
    · next hpos =>
      dsimp only at h
      rw [hspb] at h
      generalize hto : min remaining (sectorsPerBlock - lba % sectorsPerBlock) = toRead at h
      have hlt : lba % sectorsPerBlock < sectorsPerBlock := Nat.mod_lt _ (by decide)
      have hone : 1 ≤ toRead := by omega
      have hle : toRead ≤ remaining := by omega
      split at h
      · cases h
      · have hblock : lba / sectorsPerBlock % 2 ^ 32 = lba / sectorsPerBlock := by
          apply Nat.mod_eq_of_lt
          rw [sectorsPerBlock]
          omega
        rw [hblock, piece_eq (by omega), Nat.mod_eq_of_lt (show lba + toRead < 2 ^ 64 by omega)]
          at h
        rw [ih (by omega) (by omega) h, List.append_assoc, Nat.add_mul, ← bytesFrom_add,
          ← Nat.add_mul, Nat.add_sub_cancel' hle]

end Sectors

variable {C C' : Context}

theorem htlReadSectors_ok {d lba count : Nat} {dev : Device}
    {drv : Nat → HtlStatus} {out : List UInt8} (hd : C.devices[d]? = some dev) (hdev : dev.Full)
    (hrange : lba + count ≤ dev.totalBlocks * sectorsPerBlock)
    (h : htlReadSectors C d lba count true drv = (htlOk, some out, C')) :
    out = bytesFrom dev.store (lba * vipSectorSize) (count * vipSectorSize) := by
  unfold htlReadSectors at h
  rw [hd] at h
  dsimp only at h
  split at h
  · cases h
  · split at h
    · cases h
    · split at h
      · cases h
      · split at h
        · cases h
        · next out' hloop =>
          cases h
          exact readSectorsLoop_ok hdev (Nat.le_refl _) hrange hloop

/-! ## Runs -/

/-- The operations on the cache, with what the driver answers. -/
inductive Op where
  | readCached (d b : Nat) (buf : Bool) (drv : HtlStatus)
  | writeCached (d b : Nat) (buf : Option Block)
  | flush (d : Nat) (drv : Nat → HtlStatus) (drvFlush : HtlStatus)
  | register (r : Registration)
  | unregister (d : Nat)

/-- A device that is registered has blocks of `HTL_CACHE_DATA_SIZE`. -/
def Op.Full : Op → Prop
  | .register r => r.Full
  | _ => True

/-- The status of an operation and the context after it. -/
def Op.exec : Op → Context → HtlStatus × Context
  | .readCached d b buf drv, C => ((htlReadCached C d b buf drv).1, (htlReadCached C d b buf drv).2.2)
  | .writeCached d b buf, C => htlWriteCached C d b buf
  | .flush d drv drvFlush, C => htlFlushDeviceCache C d drv drvFlush
  | .register r, C => htlRegisterDevice C r
  | .unregister d, C => htlUnregisterDevice C d

/-- What an operation does to the arrays when it succeeds. -/
def Op.effect : Op → Arrays → Arrays
  | .writeCached d b (some data), A => A.write d b data
  | .register r, A => A ++ [r.store]
  | .unregister d, A => A.eraseIdx d
  | _, A => A

/-- One operation, on the context and on the arrays. -/
def callOp (s : Context × Arrays) (op : Op) : Context × Arrays :=
  ((op.exec s.1).2, if (op.exec s.1).1 = htlOk then op.effect s.2 else s.2)

/-- The runs of the operations with a cache of `cap` entries. -/
def Runs (cap : Nat) (ops : List Op) (s : Context × Arrays) : Prop :=
  StepSystem.Calls (fun _ op => op.Full) callOp (htlInit cap, []) ops s

theorem Runs.call {cap : Nat} {ops : List Op} {s : Context × Arrays} (h : Runs cap ops s) (op : Op)
    (hop : op.Full) : Runs cap (ops ++ [op]) (callOp s op) := .snoc h hop

/-- The context serves the arrays. -/
structure Faithful (C : Context) (A : Arrays) : Prop where
  /-- A successful read returns the block of the array. -/
  read : ∀ d b buf drv r C', htlReadCached C d b buf drv = (htlOk, r, C') →
    ∃ data, r = some data ∧ A.block (d, b) = some data
  /-- No block has two entries. -/
  unique : ∀ (i j : Nat) (e e' : CacheEntry), C.cache.entries[i]? = some e → C.cache.entries[j]? = some e' →
    e.valid = true → e'.valid = true → (e.deviceIdx, e.blockNum) = (e'.deviceIdx, e'.blockNum) →
      i = j
  /-- After a flush without an error the driver holds the array, and what it reads past the cache
  is what is read through it. -/
  flushed : ∀ d drv drvFlush C', htlFlushDeviceCache C d drv drvFlush = (htlOk, C') →
    ∃ f dev, A[d]? = some f ∧ C'.devices[d]? = some dev ∧ (∀ b, dev.store b = f b) ∧
      (∀ lba count drv' out C'', lba + count ≤ dev.totalBlocks * sectorsPerBlock →
        htlReadSectors C' d lba count true drv' = (htlOk, some out, C'') →
          out = bytesFrom f (lba * vipSectorSize) (count * vipSectorSize)) ∧
      ∀ b drv₁ drv₂ out data C₁ C₂,
        htlReadSectors C' d (b * sectorsPerBlock) sectorsPerBlock true drv₁ =
          (htlOk, some out, C₁) →
        htlReadCached C' d b true drv₂ = (htlOk, some data, C₂) → out = data.bytes

theorem inv_init {cap : Nat} (hcap : cap ≤ 2 ^ 31) : Inv (htlInit cap) [] := by
  have hnone : ∀ (i : Nat) (e : CacheEntry), (htlInit cap).cache.entries[i]? = some e → e.valid = false := by
    intro i e he
    rw [htlInit, List.getElem?_replicate] at he
    split at he
    · cases he
      rfl
    · cases he
  have hlines : lines (htlInit cap).cache.entries = fun _ => none := by
    funext i
    cases he : (htlInit cap).cache.entries[i]? with
    | none => rw [lines, he, Option.bind_none]
    | some e =>
      rw [lines_of_getElem? he]
      exact if_neg (by rw [hnone i e he]; exact Bool.false_ne_true)
  have hlength : (htlInit cap).cache.entries.length = cap := List.length_replicate
  refine ⟨?_, ⟨?_, Nat.zero_le _⟩, hlength.trans_le hcap, rfl, Nat.zero_le _, fun dev hdev => by cases hdev⟩
  · rw [hlines]
    exact Coherent.empty _
  · intro i e he hvalid
    rw [hnone i e he] at hvalid
    cases hvalid

theorem exec_inv {A : Arrays} {op : Op} {st : HtlStatus} (h : Inv C A)
    (hop : op.Full) (hexec : op.exec C = (st, C')) :
    Inv C' (if st = htlOk then op.effect A else A) := by
  cases op with
  | readCached d b buf drv =>
    cases hexec
    have hread : htlReadCached C d b buf drv = _ := rfl
    have hspec := (htlReadCached_spec h hread).1
    split
    · exact hspec
    · exact hspec
  | writeCached d b buf =>
    cases buf with
    | none =>
      obtain ⟨hne, rfl⟩ := htlWriteCached_null (b := b) hexec
      rw [if_neg hne]
      exact h
    | some data =>
      cases htlWriteCached_spec h hexec with
      | inl hok =>
        rw [if_pos hok.1]
        exact hok.2.2
      | inr hfail =>
        rw [if_neg hfail.1]
        exact hfail.2
  | flush d drv drvFlush =>
    have hspec := (htlFlushDeviceCache_spec h hexec).1
    split
    · exact hspec
    · exact hspec
  | register r =>
    cases htlRegisterDevice_spec h hop hexec with
    | inl hok =>
      rw [if_pos hok.1]
      exact hok.2
    | inr hfail =>
      rw [if_neg hfail.1, hfail.2]
      exact h
  | unregister d =>
    cases htlUnregisterDevice_spec h hexec with
    | inl hok =>
      rw [if_pos hok.1]
      exact hok.2
    | inr hfail =>
      rw [if_neg hfail.1, hfail.2]
      exact h

theorem callOp_inv {s : Context × Arrays} {op : Op} (h : Inv s.1 s.2) (hop : op.Full) :
    Inv (callOp s op).1 (callOp s op).2 :=
  exec_inv h hop rfl

theorem runs_inv {cap : Nat} (hcap : cap ≤ 2 ^ 31) {ops : List Op} {s : Context × Arrays}
    (h : Runs cap ops s) : Inv s.1 s.2 :=
  h.invariant (P := fun s => Inv s.1 s.2) (fun _ _ hinv hop => callOp_inv hinv hop) (inv_init hcap)

theorem htlReadCached_range {d b : Nat} {buf : Bool} {drv : HtlStatus}
    {r : Option Block} {dev : Device} (hd : C.devices[d]? = some dev)
    (h : htlReadCached C d b buf drv = (htlOk, r, C')) : b < dev.totalBlocks := by
  unfold htlReadCached at h
  rw [hd] at h
  dsimp only at h
  split at h
  · cases h
  · split at h
    · cases h
    · split at h
      · cases h
      · next hb => exact Nat.lt_of_not_le hb

theorem Inv.faithful {A : Arrays} (h : Inv C A) : Faithful C A where
  read d b buf drv r C' hread := (htlReadCached_spec h hread).2 rfl
  unique := by
    intro i j e e' he he' hvalid hvalid' hkey
    exact h.coherent.unique ((lines_of_getElem? he).trans (CacheEntry.line_of_valid hvalid))
      ((lines_of_getElem? he').trans (CacheEntry.line_of_valid hvalid')) hkey
  flushed := by
    intro d drv drvFlush C' hflush
    obtain ⟨hinv, hok⟩ := htlFlushDeviceCache_spec h hflush
    obtain ⟨f, dev, hf, hdev, hsame⟩ := hok rfl
    have hfull := hinv.full dev (List.mem_of_getElem? hdev)
    have hstore : dev.store = f := funext hsame
    refine ⟨f, dev, hf, hdev, hsame, ?_, ?_⟩
    · intro lba count drv' out C'' hrange hread
      rw [← hstore]
      exact htlReadSectors_ok hdev hfull hrange hread
    · intro b drv₁ drv₂ out data C₁ C₂ hsectors hcached
      have hb := htlReadCached_range hdev hcached
      have hrange : b * sectorsPerBlock + sectorsPerBlock ≤ dev.totalBlocks * sectorsPerBlock := by
        rw [sectorsPerBlock]
        omega
      obtain ⟨data', hdata, hblock⟩ := (htlReadCached_spec hinv hcached).2 rfl
      cases hdata
      rw [Arrays.block, hf] at hblock
      have hfb : f b = data := Option.some.inj hblock
      rw [htlReadSectors_ok hdev hfull hrange hsectors, hstore, ← hfb, ← bytesFrom_whole f b,
        Nat.mul_assoc]
      rfl

/-- With at most `2 ^ 31` entries the cached devices are arrays of blocks after every run. -/
theorem cache_refines_arrays (cap : Nat) (hcap : cap ≤ 2 ^ 31) (ops : List Op)
    (s : Context × Arrays) (h : Runs cap ops s) : Faithful s.1 s.2 :=
  (runs_inv hcap h).faithful

/-- A device with `total` zero blocks. -/
def zeroDevice (total : Nat) : Registration :=
  ⟨true, true, false, htlCacheDataSize, total, fun _ => .fill 0⟩

/-- A device is registered and a block of it written. -/
theorem cache_refines_arrays_write :
    Faithful (callOp (callOp (htlInit 2, []) (.register (zeroDevice 4)))
        (.writeCached 0 3 (some (.fill 1)))).1
      (callOp (callOp (htlInit 2, []) (.register (zeroDevice 4)))
        (.writeCached 0 3 (some (.fill 1)))).2 :=
  cache_refines_arrays 2 (by decide) [.register (zeroDevice 4), .writeCached 0 3 (some (.fill 1))] _
    (.snoc (.snoc .nil ⟨rfl, by decide⟩) trivial)

/-! ## Large caches -/

/-- The first `n` entries are those of the blocks `0` to `n - 1` of device 0. -/
structure Shaped (es : List CacheEntry) (n : Nat) : Prop where
  full : ∀ i < n, ∃ e, es[i]? = some e ∧ e.valid = true ∧ (e.deviceIdx, e.blockNum) = (0, i)
  rest : ∀ (i : Nat) (e : CacheEntry), n ≤ i → es[i]? = some e → e.valid = false

theorem Shaped.set {es : List CacheEntry} {n order : Nat} (h : Shaped es n) (hn : n < es.length)
    (data : Block) : Shaped (es.set n ⟨n, false, true, 0, order, data⟩) (n + 1) where
  full := by
    intro i hi
    by_cases hin : n = i
    · subst hin
      exact ⟨_, List.getElem?_set_self hn, rfl, rfl⟩
    · rw [List.getElem?_set_ne hin]
      exact h.full i (by omega)
  rest := by
    intro i e hi he
    rw [List.getElem?_set_ne (by omega)] at he
    exact h.rest i e (by omega) he

theorem Shaped.markDirty {c : Cache} {n : Nat} (h : Shaped c.entries n) (idx : Int) :
    Shaped (c.markDirty idx).entries n := by
  unfold Cache.markDirty
  split
  · constructor
    · intro i hi
      obtain ⟨e, he, hvalid, hkey⟩ := h.full i hi
      refine ⟨if idx.toNat = i then { e with dirty := true } else e, ?_, ?_, ?_⟩
      · rw [List.getElem?_modify, he]
        rfl
      · split
        · exact hvalid
        · exact hvalid
      · split
        · exact hkey
        · exact hkey
    · intro i e hi he
      rw [List.getElem?_modify] at he
      obtain ⟨e', he', rfl⟩ := Option.map_eq_some_iff.1 he
      have hinvalid := h.rest i e' hi he'
      split
      · exact hinvalid
      · exact hinvalid
  · exact h

theorem markDirty_kept (c : Cache) (idx : Int) :
    (c.markDirty idx).count = c.count ∧ (c.markDirty idx).entries.length = c.entries.length := by
  unfold Cache.markDirty
  split
  · exact ⟨rfl, List.length_modify ..⟩
  · exact ⟨rfl, rfl⟩

/-- A device of `2 ^ 32 - 1` zero blocks. -/
structure Device.Writable (dev : Device) : Prop where
  valid : deviceValid dev = true
  free : dev.writeProtect = false
  total : dev.totalBlocks = 2 ^ 32 - 1
  zero : dev.store = fun _ => .fill 0

/-- The first `n` blocks of the one device have been written. -/
structure Filled (cap n : Nat) (s : Context × Arrays) : Prop where
  devices : ∃ dev, s.1.devices = [dev] ∧ dev.Writable
  arrays : s.2.length = 1
  length : s.1.cache.entries.length = cap
  count : s.1.cache.count = n
  shaped : Shaped s.1.cache.entries n

section Filled

variable {cap n : Nat} {s : Context × Arrays}

theorem CacheEntry.is_zero {b : Nat} {e : CacheEntry} :
    e.Is 0 b = true ↔ e.valid = true ∧ (e.deviceIdx, e.blockNum) = (0, b) :=
  CacheEntry.is_iff (by decide)

/-- The index that is found for a block. -/
theorem cacheFind_filled (h : Filled cap n s) (hcap : n ≤ cap) (i : Nat) :
    cacheFind s.1.cache 0 i = if i < n then asInt32 i else -1 := by
  obtain ⟨⟨_, c, _⟩, A⟩ := s
  have hcount : c.count = n := h.count
  have hlength : c.entries.length = cap := h.length
  have hentry : ∀ (j : Nat) (hj : j < (c.entries.take c.count).length),
      (c.entries.take c.count)[j].Is 0 i = true ↔ j = i := by
    intro j hj
    rw [List.length_take] at hj
    obtain ⟨e, he, hvalid, hkey⟩ := h.shaped.full j (by omega)
    rw [List.getElem_take, CacheEntry.is_zero]
    obtain ⟨_, hget⟩ := List.getElem?_eq_some_iff.1 he
    rw [hget, hkey, Prod.mk.injEq]
    exact ⟨fun h => h.2.2, fun h => ⟨hvalid, rfl, h⟩⟩
  unfold cacheFind
  dsimp only
  cases h : (c.entries.take c.count).findIdx? (CacheEntry.Is 0 i) with
  | some j =>
    obtain ⟨hj, his, -⟩ := List.findIdx?_eq_some_iff_getElem.1 h
    have hji := (hentry j hj).1 his
    rw [List.length_take] at hj
    subst hji
    rw [if_pos (by omega)]
  | none =>
    have hnone := List.findIdx?_eq_none_iff.1 h
    rw [if_neg]
    intro hlt
    have hj : i < (c.entries.take c.count).length := by
      rw [List.length_take]
      omega
    have hno := hnone _ (List.getElem_mem hj)
    rw [(hentry i hj).2 rfl] at hno
    cases hno

theorem cacheInsert_filled (h : Filled cap n s) (hn : n < cap) (data : Block) (order : Nat) :
    cacheInsert s.1.cache 0 n data order = (htlOk, { s.1.cache with
      entries := s.1.cache.entries.set n ⟨n, false, true, 0, order, data⟩
      count := n + 1 }) := by
  have hlt : n < s.1.cache.entries.length := h.length ▸ hn
  have hfind : s.1.cache.entries.findIdx? (fun e => !e.valid) = some n := by
    rw [List.findIdx?_eq_some_iff_getElem]
    refine ⟨hlt, ?_, ?_⟩
    · rw [h.shaped.rest n _ (Nat.le_refl n) (List.getElem?_eq_getElem hlt)]
      rfl
    · intro j hj
      obtain ⟨e, he, hvalid, -⟩ := h.shaped.full j hj
      obtain ⟨_, hget⟩ := List.getElem?_eq_some_iff.1 he
      rw [hget, hvalid]
      exact Bool.false_ne_true
  unfold cacheInsert
  dsimp only
  rw [if_neg (by omega), hfind]
  dsimp only
  rw [if_pos (by rw [h.count]; exact hlt), h.count, Nat.zero_mod]

theorem Filled.next (h : Filled cap n s) (hn : n < cap) (hblocks : n < 2 ^ 32 - 1) (data : Block) :
    Filled cap (n + 1) (callOp s (.writeCached 0 n (some data))) ∧
      (callOp s (.writeCached 0 n (some data))).2.block (0, n) = some data := by
  have hmiss := cacheFind_filled h (Nat.le_of_lt hn) n
  rw [if_neg (Nat.lt_irrefl n)] at hmiss
  have hinsert := cacheInsert_filled h hn data (nextOrder s.1.accessCounter)
  have hlt : n < s.1.cache.entries.length := h.length ▸ hn
  have hset := @Shaped.set _ _ (nextOrder s.1.accessCounter) h.shaped hlt data
  obtain ⟨C, A⟩ := s
  obtain ⟨dev, hdevices, hdev⟩ := h.devices
  dsimp only at hdevices hmiss hinsert hlt hset
  have hget : C.devices[0]? = some dev := by
    rw [hdevices]
    rfl
  obtain ⟨c', hc'⟩ : ∃ c' : Cache, c' = { C.cache with
      entries := C.cache.entries.set n ⟨n, false, true, 0, nextOrder C.accessCounter, data⟩
      count := n + 1 } := ⟨_, rfl⟩
  have hexec : htlWriteCached C 0 n (some data) = (htlOk,
      Context.account { C with
        accessCounter := nextOrder C.accessCounter
        cache := c'.markDirty (cacheFind c' 0 n) } 0 (.addWrite dev.blockSize)) := by
    unfold htlWriteCached
    rw [hget]
    dsimp only
    rw [hdev.valid, hdev.free, hmiss, hinsert, ← hc']
    dsimp only
    rw [if_neg (by decide), if_neg (by decide), if_neg (by rw [hdev.total]; omega),
      if_neg (by decide), if_neg (by decide)]
  have hcall : callOp (C, A) (.writeCached 0 n (some data)) = (Context.account { C with
        accessCounter := nextOrder C.accessCounter
        cache := c'.markDirty (cacheFind c' 0 n) } 0 (.addWrite dev.blockSize),
      A.write 0 n data) := by
    rw [callOp, Op.exec, hexec, if_pos rfl]
    rfl
  rw [hcall]
  have hkept := markDirty_kept c' (cacheFind c' 0 n)
  constructor
  · refine ⟨⟨{ dev with stats := dev.stats.addWrite dev.blockSize }, ?_, hdev.valid, hdev.free,
      hdev.total, hdev.zero⟩, ?_, ?_, ?_, ?_⟩
    · dsimp only [Context.account]
      rw [hdevices]
      rfl
    · exact (Arrays.length_write ..).trans h.arrays
    · refine hkept.2.trans ?_
      rw [hc']
      exact (List.length_set ..).trans h.length
    · refine hkept.1.trans ?_
      rw [hc']
    · apply Shaped.markDirty
      rw [hc']
      exact hset
  · have hA : 0 < A.length := by
      rw [show A.length = 1 from h.arrays]
      exact Nat.one_pos
    rw [Arrays.block_write n data hA, Function.update_self]

theorem filled_register (cap : Nat) :
    Filled cap 0 (callOp (htlInit cap, []) (.register (zeroDevice (2 ^ 32 - 1)))) := by
  refine ⟨⟨_, rfl, rfl, rfl, rfl, rfl⟩, rfl, List.length_replicate, rfl, ?_, ?_⟩
  · intro i hi
    exact absurd hi (Nat.not_lt_zero i)
  · intro i e _ he
    have he' : (List.replicate cap (CacheEntry.mk 0 false false 0 0 (.fill 0)))[i]? = some e := he
    rw [List.getElem?_replicate] at he'
    split at he'
    · cases he'
      rfl
    · cases he'

theorem filled_reach {cap n : Nat} (hn : n ≤ cap) (hblocks : n ≤ 2 ^ 32 - 1) :
    ∃ ops s, Runs cap ops s ∧ Filled cap n s := by
  induction n with
  | zero =>
    have hstart : Runs cap [] (htlInit cap, []) := .nil
    exact ⟨_, _, hstart.call (.register (zeroDevice (2 ^ 32 - 1))) ⟨rfl, by decide⟩,
      filled_register cap⟩
  | succ n ih =>
    obtain ⟨ops, s, hruns, hfilled⟩ := ih (by omega) (by omega)
    exact ⟨_, _, hruns.call (.writeCached 0 n (some (.fill 1))) trivial,
      (hfilled.next (by omega) (by omega) (.fill 1)).1⟩

end Filled

theorem asInt32_large : asInt32 (2 ^ 31) = -2 ^ 31 := by decide

/-- A cache of more than `2 ^ 31` entries loses a block: the entry at index `2 ^ 31` is taken for
a miss, and the read returns what the driver holds. -/
theorem large_cache_loses :
    ¬ ∀ cap < 2 ^ 32, ∀ ops s, Runs cap ops s → Faithful s.1 s.2 := by
  intro hall
  obtain ⟨ops, s, hruns, hfilled⟩ := @filled_reach (2 ^ 31 + 1) (2 ^ 31) (by omega) (by omega)
  obtain ⟨hnext, hblock⟩ := hfilled.next (Nat.lt_succ_self _) (by omega) (.fill 1)
  have hfaithful := hall (2 ^ 31 + 1) (by omega) _ _
    (hruns.call (.writeCached 0 (2 ^ 31) (some (.fill 1))) trivial)
  generalize callOp s (.writeCached 0 (2 ^ 31) (some (.fill 1))) = s' at hnext hblock hfaithful
  have hfind := cacheFind_filled hnext (Nat.le_refl _) (2 ^ 31)
  rw [if_pos (Nat.lt_succ_self _), asInt32_large] at hfind
  obtain ⟨C, A⟩ := s'
  obtain ⟨dev, hdevices, hdev⟩ := hnext.devices
  dsimp only at hdevices hfind hblock hfaithful
  have hget : C.devices[0]? = some dev := by
    rw [hdevices]
    rfl
  have hread : ∃ C', htlReadCached C 0 (2 ^ 31) true htlOk =
      (htlOk, some (dev.store (2 ^ 31)), C') := by
    unfold htlReadCached
    rw [hget]
    dsimp only
    rw [hdev.valid, hfind, if_neg (by decide), if_neg (by decide),
      if_neg (by rw [hdev.total]; omega), if_neg (by decide), if_neg (by decide)]
    exact ⟨_, rfl⟩
  obtain ⟨C', hread⟩ := hread
  obtain ⟨data, hdata, hblock'⟩ := hfaithful.read _ _ _ _ _ _ hread
  rw [hblock] at hblock'
  cases hblock'
  have hsame := congrArg Block.bytes (Option.some.inj hdata)
  rw [hdev.zero] at hsame
  have hhead := congrArg List.head? hsame
  revert hhead
  decide

end Htl
