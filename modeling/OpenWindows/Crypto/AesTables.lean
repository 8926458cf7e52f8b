import OpenWindows.Crypto.Aes
import OpenWindows.Lib.Positions
import Mathlib.Dynamics.PeriodicPts.Defs
import Mathlib.Order.Interval.Finset.Nat

/-!
# The tables of AES

The S-box sends a byte to the affine transform of its inverse in `GF(2 ^ 8)`.
The source finds the inverse with logarithms to the base 3, which generates the
nonzero bytes: its first 255 powers are distinct.  So the S-box is a permutation,
and the table filled from it by index is its inverse.
-/

namespace Crypto

open Scatter

/-! ## The module -/

/-- The static variables `owcrypt_initialized`, `owc_sbox` and `owc_inv_sbox`. -/
structure AesModule extends Module where
  invSbox : List UInt8
  deriving DecidableEq

/-- The module before the first call. -/
def AesModule.zero : AesModule := ⟨.zero, List.replicate 256 0⟩

/-- The loop of `owcrypt_module_init` that fills `owc_inv_sbox`. -/
def buildInvSbox (sbox old : List UInt8) : List UInt8 :=
  (List.range 256).foldl (fun t i => t.set (byteAt sbox i).toNat (UInt8.ofNat i)) old

/-- The end of `owcrypt_module_init`, once the S-box is built. -/
def aesModuleFill (sbox : List UInt8) (m : AesModule) : Status × AesModule :=
  let invSbox := buildInvSbox sbox m.invSbox
  if byteAt sbox 0x53 ≠ 0xED then (.errBadArg, { m with sbox := sbox, invSbox := invSbox })
  else (.ok, ⟨⟨true, sbox⟩, invSbox⟩)

/-- `owcrypt_module_init`, where `boot` tells whether `k64_initialize_api`
succeeds. -/
def aesModuleInit (boot : Bool) (m : AesModule) : Status × AesModule :=
  if m.initialized then (.ok, m)
  else if !boot then (.banK64Boot, m)
  else aesModuleFill buildSbox m

/-- `owcrypt_module_shutdown`. -/
def aesModuleShutdown (m : AesModule) : Status × AesModule :=
  if !m.initialized then (.errUninitialized, m) else (.ok, .zero)

theorem aesModuleFill_toModule (boot : Bool) (m : AesModule) (sbox : List UInt8) :
    let r := if m.initialized then (.ok, m) else if !boot then (.banK64Boot, m)
      else aesModuleFill sbox m
    (r.1, r.2.toModule) =
      if m.initialized then (.ok, m.toModule) else if !boot then (.banK64Boot, m.toModule)
      else if byteAt sbox 0x53 ≠ 0xED then (.errBadArg, { m.toModule with sbox := sbox })
      else (.ok, ⟨true, sbox⟩) := by
  dsimp only
  split
  · rfl
  · split
    · rfl
    · unfold aesModuleFill
      dsimp only
      split
      · rfl
      · rfl

theorem aesModuleInit_toModule (boot : Bool) (m : AesModule) :
    ((aesModuleInit boot m).1, (aesModuleInit boot m).2.toModule) = moduleInit boot m.toModule :=
  aesModuleFill_toModule boot m buildSbox

theorem aesModuleShutdown_toModule (m : AesModule) :
    ((aesModuleShutdown m).1, (aesModuleShutdown m).2.toModule) = moduleShutdown m.toModule := by
  unfold aesModuleShutdown moduleShutdown
  split
  · rfl
  · rfl

/-- A call that sets the module up or shuts it down. -/
inductive Call where
  | init (boot : Bool)
  | shutdown
  deriving DecidableEq

def AesModule.call (m : AesModule) : Call → AesModule
  | .init boot => (aesModuleInit boot m).2
  | .shutdown => (aesModuleShutdown m).2

def AesModule.run (calls : List Call) : AesModule := calls.foldl AesModule.call .zero

/-! ## Runs -/

theorem buildInvSbox_eq (sbox old : List UInt8) :
    buildInvSbox sbox old = scatter (fun i => (byteAt sbox i).toNat) UInt8.ofNat 256 old := rfl

/-- What holds between calls: an initialized module has its two tables. -/
structure AesModule.Sound (m : AesModule) : Prop where
  length : m.invSbox.length = 256
  built : m.initialized = true →
    m.sbox = buildSbox ∧ ∃ old : List UInt8, old.length = 256 ∧ m.invSbox = buildInvSbox buildSbox old

theorem AesModule.Sound.zero : AesModule.zero.Sound :=
  ⟨List.length_replicate, fun h => Bool.noConfusion h⟩

@[simp] theorem length_buildInvSbox (sbox old : List UInt8) :
    (buildInvSbox sbox old).length = old.length := by
  rw [buildInvSbox_eq, length_scatter]

theorem AesModule.Sound.tables (initialized : Bool) {old : List UInt8} (h : old.length = 256) :
    AesModule.Sound ⟨⟨initialized, buildSbox⟩, buildInvSbox buildSbox old⟩ := by
  constructor
  case length => simp only [length_buildInvSbox, h]
  case built =>
    intro _
    dsimp only
    exact ⟨rfl, old, h, rfl⟩

theorem aesModuleFill_eq (sbox : List UInt8) (m : AesModule) :
    ∃ initialized, (aesModuleFill sbox m).2 = ⟨⟨initialized, sbox⟩, buildInvSbox sbox m.invSbox⟩ := by
  unfold aesModuleFill
  dsimp only
  split
  · exact ⟨m.initialized, rfl⟩
  · exact ⟨true, rfl⟩

variable {m : AesModule} {i j : Nat}

theorem AesModule.Sound.init (h : m.Sound) (boot : Bool) : (aesModuleInit boot m).2.Sound := by
  unfold aesModuleInit
  split
  · exact h
  · split
    · exact h
    · obtain ⟨initialized, hfill⟩ := aesModuleFill_eq buildSbox m
      rw [hfill]
      exact .tables initialized h.length

theorem AesModule.Sound.shutdown (h : m.Sound) : (aesModuleShutdown m).2.Sound := by
  unfold aesModuleShutdown
  split
  · exact h
  · exact .zero

theorem AesModule.Sound.call (h : m.Sound) (c : Call) : (m.call c).Sound := by
  cases c with
  | init boot => exact h.init boot
  | shutdown => exact h.shutdown

theorem AesModule.Sound.run (calls : List Call) : (AesModule.run calls).Sound := by
  have hall : ∀ m : AesModule, m.Sound → (calls.foldl AesModule.call m).Sound := by
    induction calls with
    | nil => exact fun _ h => h
    | cons c calls ih => exact fun m h => ih _ (h.call c)
  exact hall _ .zero

/-! ## The generator -/

/-- A turn of the loop of `owcrypt_module_init` multiplies by 3. -/
def triple (x : UInt16) : UInt16 :=
  let o := x
  let x := x <<< 1
  let x := if x &&& 0x100 ≠ 0 then x ^^^ 0x11B else x
  x ^^^ o

def power (n : Nat) : UInt16 := triple^[n] 1

theorem power_succ (n : Nat) : power (n + 1) = triple (power n) :=
  Function.iterate_succ_apply' ..

/-- `triple` on numbers. -/
def tripleNat (n : Nat) : Nat :=
  (if (2 * n) &&& 0x100 ≠ 0 then (2 * n) ^^^ 0x11B else 2 * n) ^^^ n

theorem toNat_triple {x : UInt16} (h : x.toNat < 256) : (triple x).toNat = tripleNat x.toNat := by
  have hshift : (x <<< 1).toNat = 2 * x.toNat := by
    rw [UInt16.toNat_shiftLeft, show (1 : UInt16).toNat % 16 = 1 from rfl, Nat.shiftLeft_eq]
    omega
  have htest : x <<< 1 &&& 0x100 ≠ 0 ↔ (2 * x.toNat) &&& 0x100 ≠ 0 := by
    rw [Ne, ← UInt16.toNat_inj, UInt16.toNat_and, hshift]
    rfl
  unfold triple tripleNat
  simp only [htest]
  split
  · rw [UInt16.toNat_xor, UInt16.toNat_xor, hshift]
    rfl
  · rw [UInt16.toNat_xor, hshift]

set_option maxRecDepth 8000 in
theorem triple_lt {x : UInt16} (h : x.toNat < 256) : (triple x).toNat < 256 := by
  have hall : ∀ n < 256, tripleNat n < 256 := by decide
  rw [toNat_triple h]
  exact hall _ h

theorem power_lt (n : Nat) : (power n).toNat < 256 := by
  induction n with
  | zero => decide
  | succ n ih =>
    rw [power_succ]
    exact triple_lt ih

theorem toNat_power_eq (n : Nat) : (power n).toNat = tripleNat^[n] 1 := by
  induction n with
  | zero => rfl
  | succ n ih => rw [power_succ, toNat_triple (power_lt n), ih, Function.iterate_succ_apply']

theorem power_eq_one_iff (n : Nat) : triple^[n] 1 = 1 ↔ tripleNat^[n] 1 = 1 := by
  rw [← toNat_power_eq, ← UInt16.toNat_inj]
  rfl

set_option maxRecDepth 8000 in
theorem isPeriodicPt_triple : Function.IsPeriodicPt triple 255 1 :=
  (power_eq_one_iff 255).mpr (by decide)

set_option maxRecDepth 8000 in
theorem minimalPeriod_triple : Function.minimalPeriod triple 1 = 255 := by
  have hdivisors : ∀ d ≤ 255, d ∣ 255 → d = 255 ∨ d ∣ 85 ∨ d ∣ 51 ∨ d ∣ 15 := by decide
  have hdvd := isPeriodicPt_triple.minimalPeriod_dvd
  have hper := Function.isPeriodicPt_minimalPeriod triple 1
  rcases hdivisors _ (Nat.le_of_dvd (by decide) hdvd) hdvd with h | h | h | h
  · exact h
  · exact absurd ((power_eq_one_iff 85).mp (hper.trans_dvd h)) (by decide)
  · exact absurd ((power_eq_one_iff 51).mp (hper.trans_dvd h)) (by decide)
  · exact absurd ((power_eq_one_iff 15).mp (hper.trans_dvd h)) (by decide)

theorem power_mod (n : Nat) : power (n % 255) = power n :=
  isPeriodicPt_triple.iterate_mod_apply n

theorem power_injOn (hi : i < 255) (hj : j < 255) (h : power i = power j) : i = j := by
  have hinj := Function.iterate_injOn_Iio_minimalPeriod (f := triple) (x := 1)
  rw [minimalPeriod_triple] at hinj
  exact hinj hi hj h

theorem power_ne_zero (n : Nat) : power n ≠ 0 := by
  intro h
  have hzero : ∀ k, power (n + k) = 0 := by
    intro k
    induction k with
    | zero => exact h
    | succ k ih =>
      rw [← Nat.add_assoc, power_succ, ih]
      rfl
  have hone := isPeriodicPt_triple.const_mul n
  have heq : power (n * 255) = 1 := hone
  have hk := hzero (n * 254)
  rw [show n + n * 254 = n * 255 by omega, heq] at hk
  exact absurd hk (by decide)

theorem power_injOn_pos (hi : 1 ≤ i ∧ i ≤ 255) (hj : 1 ≤ j ∧ j ≤ 255)
    (h : power i = power j) : i = j := by
  rw [← power_mod i, ← power_mod j] at h
  have hmod := power_injOn (Nat.mod_lt i (by decide)) (Nat.mod_lt j (by decide)) h
  omega

theorem toNat_power (n : Nat) : (power n).toUInt8.toNat = (power n).toNat := by
  rw [UInt16.toNat_toUInt8, Nat.mod_eq_of_lt (power_lt n)]

theorem power_eq_of_byte (h : (power i).toUInt8 = (power j).toUInt8) : power i = power j := by
  apply UInt16.toNat_inj.mp
  rw [← toNat_power, ← toNat_power, h]

theorem exists_power {b : UInt8} (hb : b ≠ 0) :
    ∃ k, (1 ≤ k ∧ k ≤ 255) ∧ (power k).toUInt8 = b := by
  have hmaps : Set.MapsTo (fun k => (power k).toNat) (Finset.Icc 1 255) (Finset.Icc 1 255) := by
    intro k _
    have hpos : (power k).toNat ≠ 0 := fun h => power_ne_zero k (UInt16.toNat_inj.mp h)
    have hlt := power_lt k
    simp only [Finset.coe_Icc, Set.mem_Icc]
    omega
  have hinj : Set.InjOn (fun k => (power k).toNat) (Finset.Icc 1 255 : Finset Nat) := by
    intro i hi j hj h
    simp only [Finset.coe_Icc, Set.mem_Icc] at hi hj
    exact power_injOn_pos hi hj (UInt16.toNat_inj.mp h)
  have hmem : b.toNat ∈ (Finset.Icc 1 255 : Finset Nat) := by
    have hpos : b.toNat ≠ 0 := fun h => hb (UInt8.toNat_inj.mp h)
    have hlt := b.toNat_lt
    simp only [Finset.mem_Icc]
    omega
  obtain ⟨k, hk, hpow⟩ := Finset.surjOn_of_injOn_of_card_le _ hmaps hinj (Nat.le_refl _) hmem
  refine ⟨k, by simpa using hk, UInt8.toNat_inj.mp ?_⟩
  rw [toNat_power]
  exact hpow

/-! ## Logarithms -/

theorem powers_run (n : Nat) (e l : List UInt8) :
    (List.range n).foldl powersTurn ⟨e, l, 1⟩ =
      ⟨scatter id (fun i => (power i).toUInt8) n e,
        scatter (fun i => (power i).toUInt8.toNat) UInt8.ofNat n l, power n⟩ := by
  induction n with
  | zero => rfl
  | succ n ih =>
    rw [List.range_succ, List.foldl_append, ih, scatter_succ, scatter_succ, power_succ]
    rfl

theorem byteAt_of_getElem? {p : List UInt8} {b : UInt8} (h : p[i]? = some b) : byteAt p i = b := by
  rw [byteAt, List.getD_eq_getElem?_getD, h]
  rfl

theorem byteAt_powers_e (hi : i < 256) : byteAt powers.e i = (power i).toUInt8 := by
  rw [powers, powers_run]
  apply byteAt_of_getElem?
  apply getElem?_scatter_of_injOn (f := id)
  · exact fun _ _ _ _ h => h
  · exact hi
  · rwa [List.length_replicate]

theorem byteAt_powers_l {k : Nat} (hk : 1 ≤ k ∧ k ≤ 255) :
    byteAt powers.l (power k).toUInt8.toNat = UInt8.ofNat k := by
  rw [powers, powers_run]
  apply byteAt_of_getElem?
  apply getElem?_scatter (i := k) (f := fun i => (power i).toUInt8.toNat)
  · omega
  · rw [List.length_replicate]
    exact UInt8.toNat_lt _
  · intro j hkj hj heq
    have hpow := power_eq_of_byte (UInt8.toNat_inj.mp heq)
    have := power_injOn_pos ⟨by omega, by omega⟩ hk hpow
    omega

/-! ## The S-box -/

/-- The inverse of a byte, as `owcrypt_module_init` reads it from the tables. -/
def tableInverse (b : UInt8) : UInt8 :=
  if b.toNat = 0 then 0 else byteAt powers.e (255 - (byteAt powers.l b.toNat).toNat)

theorem byteAt_buildSbox (b : UInt8) : byteAt buildSbox b.toNat = affine (tableInverse b) := by
  apply byteAt_of_getElem?
  rw [buildSbox, List.getElem?_map, List.getElem?_range b.toNat_lt]
  rfl

@[simp] theorem tableInverse_zero : tableInverse 0 = 0 := rfl

theorem tableInverse_power {k : Nat} (hk : 1 ≤ k ∧ k ≤ 255) :
    tableInverse (power k).toUInt8 = (power (255 - k)).toUInt8 := by
  have hpos : (power k).toUInt8.toNat ≠ 0 := by
    rw [toNat_power]
    exact fun h => power_ne_zero k (UInt16.toNat_inj.mp h)
  have hk256 : (UInt8.ofNat k).toNat = k := UInt8.toNat_ofNat_of_lt' (show k < 256 by omega)
  rw [tableInverse, if_neg hpos, byteAt_powers_l hk, hk256, byteAt_powers_e (by omega)]

theorem power_byte_ne_zero (k : Nat) : (power k).toUInt8 ≠ 0 := by
  intro h
  apply power_ne_zero k
  apply UInt16.toNat_inj.mp
  rw [← toNat_power, h]
  rfl

theorem tableInverse_injective : Function.Injective tableInverse := by
  intro a b h
  by_cases ha : a = 0
  · by_cases hb : b = 0
    · rw [ha, hb]
    · obtain ⟨j, hj, rfl⟩ := exists_power hb
      rw [ha, tableInverse_zero, tableInverse_power hj] at h
      exact absurd h.symm (power_byte_ne_zero _)
  · obtain ⟨i, hi, rfl⟩ := exists_power ha
    rw [tableInverse_power hi] at h
    by_cases hb : b = 0
    · rw [hb, tableInverse_zero] at h
      exact absurd h (power_byte_ne_zero _)
    · obtain ⟨j, hj, rfl⟩ := exists_power hb
      rw [tableInverse_power hj] at h
      have hpow := power_injOn (by omega) (by omega) (power_eq_of_byte h)
      rw [show i = j by omega]

def affineBack (s : UInt8) : UInt8 :=
  let rotl := fun n : UInt8 => (s <<< n) ||| (s >>> (8 - n))
  rotl 1 ^^^ rotl 3 ^^^ rotl 6 ^^^ 0x05

/-- `affine` on numbers. -/
def affineNat (n : Nat) : Nat :=
  let turn := fun ((t, s) : Nat × Nat) =>
    let t := (t <<< 1 % 256) ||| (t >>> 7)
    (t, s ^^^ t)
  (turn^[4] (n, n)).2 ^^^ 0x63

/-- `affineBack` on numbers. -/
def affineBackNat (s : Nat) : Nat :=
  let rotl := fun n => (s <<< n % 256) ||| (s >>> (8 - n))
  rotl 1 ^^^ rotl 3 ^^^ rotl 6 ^^^ 0x05

theorem toNat_affine (b : UInt8) : (affine b).toNat = affineNat b.toNat := by
  simp [affine, affineNat, Function.iterate_succ]

theorem toNat_affineBack (b : UInt8) : (affineBack b).toNat = affineBackNat b.toNat := by
  simp [affineBack, affineBackNat]

set_option maxRecDepth 8000 in
theorem affineBack_affine : Function.LeftInverse affineBack affine := by
  intro b
  have hall : ∀ n < 256, affineBackNat (affineNat n) = n := by decide
  rw [← UInt8.toNat_inj, toNat_affineBack, toNat_affine]
  exact hall _ b.toNat_lt

theorem buildSbox_injective : Function.Injective fun b : UInt8 => byteAt buildSbox b.toNat := by
  intro a b h
  simp only [byteAt_buildSbox] at h
  exact tableInverse_injective (affineBack_affine.injective h)

theorem buildSbox_surjective :
    Function.Surjective fun b : UInt8 => byteAt buildSbox b.toNat := by
  have : Finite UInt8 := Finite.of_injective UInt8.toFin fun _ _ h => UInt8.toFin_inj.mp h
  exact Finite.surjective_of_injective buildSbox_injective

theorem byteAt_buildInvSbox {old : List UInt8} (hold : old.length = 256) (b : UInt8) :
    byteAt (buildInvSbox buildSbox old) (byteAt buildSbox b.toNat).toNat = b := by
  have hofNat : ∀ i < 256, (UInt8.ofNat i).toNat = i := fun _ hi => UInt8.toNat_ofNat_of_lt' hi
  have hb : UInt8.ofNat b.toNat = b := UInt8.ofNat_toNat
  rw [buildInvSbox_eq]
  apply byteAt_of_getElem?
  rw [getElem?_scatter_of_injOn (f := fun i => (byteAt buildSbox i).toNat) (i := b.toNat)]
  · rw [hb]
  · intro i hi j hj heq
    have hsame := UInt8.toNat_inj.mp heq
    rw [← hofNat i hi, ← hofNat j hj] at hsame ⊢
    rw [buildSbox_injective hsame]
  · exact b.toNat_lt
  · rw [hold]
    exact UInt8.toNat_lt _

/-! ## The tables of the module -/

/-- An entry of the inverse S-box. -/
def AesModule.invSub (m : AesModule) (b : UInt8) : UInt8 := byteAt m.invSbox b.toNat

/-- The two tables undo each other. -/
structure AesModule.Inverse (m : AesModule) : Prop where
  invSub_sub : ∀ b : UInt8, m.invSub (m.sub b) = b
  sub_invSub : ∀ b : UInt8, m.sub (m.invSub b) = b

theorem AesModule.Sound.inverse (h : m.Sound) (hinit : m.initialized = true) : m.Inverse := by
  obtain ⟨hsbox, old, hold, hinv⟩ := h.built hinit
  have hback : ∀ b : UInt8, m.invSub (m.sub b) = b := by
    intro b
    rw [invSub, Module.sub, hsbox, hinv]
    exact byteAt_buildInvSbox hold b
  constructor
  case invSub_sub => exact hback
  case sub_invSub =>
    intro b
    obtain ⟨a, ha⟩ := buildSbox_surjective b
    have hsub : m.sub a = b := by
      rw [Module.sub, hsbox]
      exact ha
    rw [← hsub, hback]

set_option maxRecDepth 8000 in
theorem buildSbox_snapshot : byteAt buildSbox 0x53 = 0xED := by
  have hpow : (power 48).toUInt8 = 0x53 := by
    rw [← UInt8.toNat_inj, toNat_power, toNat_power_eq]
    decide
  have hbox := byteAt_buildSbox (power 48).toUInt8
  rw [tableInverse_power ⟨by decide, by decide⟩, hpow] at hbox
  have haffine : affine (power (255 - 48)).toUInt8 = 0xED := by
    rw [← UInt8.toNat_inj, toNat_affine, toNat_power, toNat_power_eq]
    decide
  rw [haffine] at hbox
  exact hbox

theorem moduleFill_ok (m : Module) {sbox : List UInt8} (h : byteAt sbox 0x53 = 0xED) :
    Prod.fst (if m.initialized then (Status.ok, m) else if !true then (.banK64Boot, m)
      else if byteAt sbox 0x53 ≠ 0xED then (.errBadArg, { m with sbox := sbox })
      else (.ok, ⟨true, sbox⟩)) = .ok := by
  split
  · rfl
  · rw [if_neg (by decide), if_neg (not_not_intro h)]

theorem moduleInit_ok (m : Module) : (moduleInit true m).1 = .ok :=
  moduleFill_ok m buildSbox_snapshot

theorem aesModuleFill_initialized {sbox : List UInt8} (h : byteAt sbox 0x53 = 0xED)
    (m : AesModule) : (aesModuleFill sbox m).2.initialized = true := by
  rw [aesModuleFill, if_neg (not_not_intro h)]

theorem aesModuleInit_initialized (m : AesModule) :
    (aesModuleInit true m).2.initialized = true := by
  unfold aesModuleInit
  split
  next hinit => exact hinit
  · split
    next hboot => cases hboot
    · exact aesModuleFill_initialized buildSbox_snapshot m

theorem AesModule.run_init : (AesModule.run [.init true]).initialized = true := by
  rw [run, List.foldl_cons, List.foldl_nil, call]
  exact aesModuleInit_initialized .zero

end Crypto
