import OpenWindows.Dns.Resolver
import OpenWindows.Ip.Stack
import OpenWindows.Lib.Slots

/-!
# Replacement in the caches of addresses

`ip_arp_store` and `dns_cache_insert` mean to evict the oldest entry of a full
cache.  But no entry ever ages, and among entries of one age the last slot is
taken.  So both are caches that give up the key in their last slot.
-/

open Slots

/-! ## The DNS cache -/

namespace Dns

/-- A name up to its capital letters. -/
def Name.key (name : Name) : List UInt8 := name.bytes.map lower

def Entry.key (e : Entry) : Option (List UInt8) := if e.valid then some e.name.key else none

def Resolver.cacheKeys (r : Resolver) : Nat → Option (List UInt8) := Entry.key ∘ r.cache

/-- A run of `dns_cache_insert`. -/
def cacheInserts (r : Resolver) (run : List (Name × UInt32 × UInt32)) : Resolver :=
  run.foldl (fun r (name, ip, ttl) => cacheInsert r name ip ttl) r

/-- No entry has aged. -/
def Resolver.Ageless (r : Resolver) : Prop := ∀ i, (r.cache i).age = 0

variable {r : Resolver}

theorem Entry.matches_eq (e : Entry) (name : Name) :
    e.matches name.bytes = decide (e.key = some name.key) := by
  have hkey : streqCi e.name.bytes name.bytes = true ↔ e.name.key = name.key :=
    streqCi_iff e.name.bytes name.bytes
  cases hv : e.valid with
  | false => simp [Entry.matches, Entry.key, hv]
  | true =>
    rw [Bool.eq_iff_iff]
    simpa [Entry.matches, Entry.key, hv] using hkey

theorem Entry.isNone_key (e : Entry) : e.key.isNone = !e.valid := by
  cases hv : e.valid <;> simp [Entry.key, hv]

theorem oldestEntry_eq (h : r.Ageless) : oldestEntry r = cacheMax - 1 := by
  rw [oldestEntry, foldl_oldest (by decide) fun i _ => h i]

theorem slotFor_cacheKeys (h : r.Ageless) (name : Name) :
    slotFor (cacheMax - 1) r.cacheKeys name.key =
      (findEntry r name.bytes).getD (victimEntry r) := by
  have hmatches : (fun i => (r.cache i).matches name.bytes) =
      fun i => decide (r.cacheKeys i = some name.key) := funext fun i => (r.cache i).matches_eq name
  have hfree : (fun i => !(r.cache i).valid) = fun i => (r.cacheKeys i).isNone :=
    funext fun i => ((r.cache i).isNone_key).symm
  have hmax : cacheMax - 1 + 1 = cacheMax := rfl
  rw [slotFor, findEntry, victimEntry, hmatches, hfree, oldestEntry_eq h, hmax]
  cases (List.range cacheMax).find? fun i => decide (r.cacheKeys i = some name.key) <;> rfl

theorem cacheInsert_slot (h : r.Ageless) (name : Name) (ip ttl : UInt32) :
    ∃ e : Entry, e.key = some name.key ∧ e.age = 0 ∧
      (cacheInsert r name ip ttl).cache =
        Function.update r.cache (slotFor (cacheMax - 1) r.cacheKeys name.key) e := by
  rw [slotFor_cacheKeys h, cacheInsert]
  cases hfind : findEntry r name.bytes with
  | none => exact ⟨⟨name, ip, ttl, 0, true⟩, rfl, rfl, rfl⟩
  | some i =>
    have hkey : (r.cache i).key = some name.key := by
      simpa [Entry.matches_eq] using (find?_range_spec hfind).2
    exact ⟨{ r.cache i with ip := ip, ttl := ttl, age := 0 }, hkey, rfl, rfl⟩

theorem cacheInsert_keys (h : r.Ageless) (name : Name) (ip ttl : UInt32) :
    (cacheInsert r name ip ttl).Ageless ∧
      (cacheInsert r name ip ttl).cacheKeys =
        storeKey (cacheMax - 1) r.cacheKeys name.key := by
  obtain ⟨e, hkey, hage, hcache⟩ := cacheInsert_slot h name ip ttl
  rw [Resolver.Ageless, Resolver.cacheKeys, hcache]
  refine ⟨?_, by rw [Function.comp_update, hkey]; rfl⟩
  exact (Function.forall_update_iff r.cache fun _ e => e.age = 0).mpr ⟨hage, fun i _ => h i⟩

theorem cacheInserts_keys (serverIp : UInt32) (run : List (Name × UInt32 × UInt32)) :
    (cacheInserts (.init serverIp) run).cacheKeys =
      storeKeys (cacheMax - 1) (run.map fun insert => insert.1.key) :=
  foldl_storeKey Resolver.Ageless
    (fun _ x h => cacheInsert_keys h x.1 x.2.1 x.2.2) (fun _ => rfl) run

end Dns

/-! ## The ARP cache -/

namespace Ip

def ArpEntry.key (e : ArpEntry) : Option UInt32 := if e.valid then some e.ip else none

def Stack.arpKeys (st : Stack) : Nat → Option UInt32 := ArpEntry.key ∘ st.arpCache

/-- A run of `ip_arp_store`. -/
def arpStores (st : Stack) (run : List (UInt32 × Mac)) : Stack :=
  run.foldl (fun st (ip, mac) => arpStore st ip mac) st

/-- No entry has aged. -/
def Stack.Ageless (st : Stack) : Prop := ∀ i, (st.arpCache i).age = 0

variable {st : Stack}

theorem ArpEntry.matches_eq (e : ArpEntry) (ip : UInt32) :
    e.matches ip = decide (e.key = some ip) := by
  cases hv : e.valid <;> simp [ArpEntry.matches, ArpEntry.key, hv, beq_eq_decide]

theorem ArpEntry.isNone_key (e : ArpEntry) : e.key.isNone = !e.valid := by
  cases hv : e.valid <;> simp [ArpEntry.key, hv]

/-- The oldest entry is always the one in the last slot. -/
theorem arpVictim_eq (h : st.Ageless) : arpVictim st = arpCacheMax - 1 := by
  rw [arpVictim, foldl_oldest (by decide) fun i _ => h i]

theorem arpStore_slot (h : st.Ageless) (ip : UInt32) (mac : Mac) :
    ∃ e : ArpEntry, e.key = some ip ∧ e.age = 0 ∧
      (arpStore st ip mac).arpCache =
        Function.update st.arpCache (slotFor (arpCacheMax - 1) st.arpKeys ip) e := by
  have hmatches : (fun i => (st.arpCache i).matches ip) = fun i => decide (st.arpKeys i = some ip) :=
    funext fun i => (st.arpCache i).matches_eq ip
  have hfree : (fun i => !(st.arpCache i).valid) = fun i => (st.arpKeys i).isNone :=
    funext fun i => ((st.arpCache i).isNone_key).symm
  have hmax : arpCacheMax - 1 + 1 = arpCacheMax := rfl
  rw [slotFor, arpStore, arpLookup, hmatches, hfree, arpVictim_eq h, hmax]
  cases hfind : (List.range arpCacheMax).find? fun i => decide (st.arpKeys i = some ip) with
  | some i =>
    have hkey : st.arpKeys i = some ip := by simpa using (find?_range_spec hfind).2
    exact ⟨{ st.arpCache i with mac := mac, age := 0 }, hkey, rfl, rfl⟩
  | none =>
    cases hnone : (List.range arpCacheMax).find? fun i => (st.arpKeys i).isNone with
    | some i => exact ⟨⟨ip, mac, 0, true⟩, rfl, rfl, rfl⟩
    | none =>
      have hvalid : (st.arpCache (arpCacheMax - 1)).valid = true := by
        rw [← hfree] at hnone
        simpa using find?_range_none hnone (show arpCacheMax - 1 < arpCacheMax by decide)
      exact ⟨{ st.arpCache (arpCacheMax - 1) with ip := ip, mac := mac, age := 0 },
        if_pos hvalid, rfl, rfl⟩

theorem arpStore_keys (h : st.Ageless) (ip : UInt32) (mac : Mac) :
    (arpStore st ip mac).Ageless ∧
      (arpStore st ip mac).arpKeys = storeKey (arpCacheMax - 1) st.arpKeys ip := by
  obtain ⟨e, hkey, hage, hcache⟩ := arpStore_slot h ip mac
  rw [Stack.Ageless, Stack.arpKeys, hcache]
  refine ⟨?_, by rw [Function.comp_update, hkey]; rfl⟩
  exact (Function.forall_update_iff st.arpCache fun _ e => e.age = 0).mpr ⟨hage, fun i _ => h i⟩

theorem arpStores_keys (cfg : Config) (run : List (UInt32 × Mac)) :
    (arpStores (.init cfg) run).arpKeys = storeKeys (arpCacheMax - 1) (run.map Prod.fst) :=
  foldl_storeKey Stack.Ageless
    (fun _ x h => arpStore_keys h x.1 x.2) (fun _ => rfl) run

abbrev ArpReplaces (cfg : Config) (run : List (UInt32 × Mac)) : Prop :=
  ReplacesOldest (arpCacheMax - 1) Prod.fst (fun p => (arpStores (.init cfg) p).arpKeys) run

abbrev DnsReplaces (serverIp : UInt32) (run : List (Dns.Name × UInt32 × UInt32)) : Prop :=
  ReplacesOldest (Dns.cacheMax - 1) (fun insert => insert.1.key)
    (fun p => (Dns.cacheInserts (.init serverIp) p).cacheKeys) run

theorem arpReplaces_iff (cfg : Config) (run : List (UInt32 × Mac)) :
    ArpReplaces cfg run ↔ FirstRefreshed 15 (run.map Prod.fst) := by
  rw [ArpReplaces, funext (arpStores_keys cfg)]
  exact replacesOldest_iff (Nat.succ_pos 14) Prod.fst run

theorem dnsReplaces_iff (serverIp : UInt32) (run : List (Dns.Name × UInt32 × UInt32)) :
    DnsReplaces serverIp run ↔ FirstRefreshed 15 (run.map fun insert => insert.1.key) := by
  rw [DnsReplaces, funext (Dns.cacheInserts_keys serverIp)]
  exact replacesOldest_iff (Nat.succ_pos 14) (fun insert => insert.1.key) run

/-- The caches replace the oldest entry exactly in the runs in which the first
fifteen keys are all stored again before the sixteenth slot is needed for another
key.  For keys that all differ these are the runs of at most sixteen stores. -/
theorem caches_replaceOldest_iff (cfg : Config) (stores : List (UInt32 × Mac)) (serverIp : UInt32)
    (inserts : List (Dns.Name × UInt32 × UInt32)) :
    (ArpReplaces cfg stores ↔ FirstRefreshed 15 (stores.map Prod.fst)) ∧
      (DnsReplaces serverIp inserts ↔
        FirstRefreshed 15 (inserts.map fun insert => insert.1.key)) ∧
      ((stores.map Prod.fst).Nodup → (ArpReplaces cfg stores ↔ stores.length ≤ 16)) ∧
      ((inserts.map fun insert => insert.1.key).Nodup →
        (DnsReplaces serverIp inserts ↔ inserts.length ≤ 16)) := by
  refine ⟨arpReplaces_iff cfg stores, dnsReplaces_iff serverIp inserts, fun h => ?_, fun h => ?_⟩
  · rw [arpReplaces_iff, firstRefreshed_of_nodup (Nat.succ_pos 14) h, List.length_map]
  · rw [dnsReplaces_iff, firstRefreshed_of_nodup (Nat.succ_pos 14) h, List.length_map]

def letter (i : Fin 17) : Dns.Name :=
  ⟨⟨[97 + UInt8.ofNat i], by revert i; decide⟩, by revert i; decide⟩

/-- Stores of seventeen addresses. -/
def manyStores : List (UInt32 × Mac) := (List.range 17).map fun i => (UInt32.ofNat i, .all)

def manyInserts : List (Dns.Name × UInt32 × UInt32) :=
  (List.finRange 17).map fun i => (letter i, 0, 0)

/-- The seventeenth key takes the place of the sixteenth. -/
theorem caches_evict_newest :
    ((manyStores.map Prod.fst).Nodup ∧ ¬ ArpReplaces ⟨0, 0, 0, .all⟩ manyStores) ∧
      (manyInserts.map fun insert => insert.1.key).Nodup ∧ ¬ DnsReplaces 0 manyInserts := by
  have hstores : (manyStores.map Prod.fst).Nodup := by decide
  have hinserts : (manyInserts.map fun insert => insert.1.key).Nodup := by decide
  refine ⟨⟨hstores, ?_⟩, hinserts, ?_⟩
  · rw [arpReplaces_iff, firstRefreshed_of_nodup (Nat.succ_pos 14) hstores]
    decide
  · rw [dnsReplaces_iff, firstRefreshed_of_nodup (Nat.succ_pos 14) hinserts]
    decide

end Ip
