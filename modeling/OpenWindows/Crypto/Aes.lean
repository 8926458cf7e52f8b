import OpenWindows.Crypto.ChaCha20

/-!
# The module state and AES of `owcrypt`

`owcrypt_module_init` builds the S-box from the powers of the generator 3 of
`GF(2 ^ 8)`, and the module is initialized only if one entry of it is right.
The rounds of AES read the S-box from there.
-/

namespace Crypto

/-! ## Statuses -/

/-- `owcrypt_status_t`. -/
inductive Status where
  | ok | banK64Boot | banAuthFail | banBancode | banBadKey | errUninitialized | errBadArg
  | errShortOut
  deriving DecidableEq, Repr

/-! ## The module -/

/-- The static variables `owcrypt_initialized` and `owc_sbox`. -/
structure Module where
  initialized : Bool
  sbox : List UInt8
  deriving DecidableEq

/-- The module before the first call. -/
def Module.zero : Module := ⟨false, List.replicate 256 0⟩

/-- The tables `e` and `l` of `owcrypt_module_init`, with the power that comes
next. -/
structure Powers where
  e : List UInt8
  l : List UInt8
  x : UInt16

/-- One turn of the loop that fills the tables. -/
def powersTurn (t : Powers) (i : Nat) : Powers :=
  let o := t.x
  let x := t.x <<< 1
  let x := if x &&& 0x100 ≠ 0 then x ^^^ 0x11B else x
  { e := t.e.set i o.toUInt8
    l := t.l.set o.toUInt8.toNat (UInt8.ofNat i)
    x := x ^^^ o }

/-- The tables of powers and logarithms. -/
def powers : Powers :=
  (List.range 256).foldl powersTurn ⟨List.replicate 256 0, List.replicate 256 0, 1⟩

/-- The affine transform of an inverse. -/
def affine (inv : UInt8) : UInt8 :=
  let turn := fun ((t, s) : UInt8 × UInt8) =>
    let t := (t <<< 1) ||| (t >>> 7)
    (t, s ^^^ t)
  (turn^[4] (inv, inv)).2 ^^^ 0x63

/-- `owc_sbox` as `owcrypt_module_init` builds it. -/
def buildSbox : List UInt8 :=
  let t := powers
  (List.range 256).map fun i =>
    affine (if i = 0 then 0 else byteAt t.e (255 - (byteAt t.l i).toNat))

/-- `owcrypt_module_init`, where `boot` tells whether `k64_initialize_api`
succeeds. -/
def moduleInit (boot : Bool) (m : Module) : Status × Module :=
  if m.initialized then (.ok, m)
  else if !boot then (.banK64Boot, m)
  else
    let sbox := buildSbox
    if byteAt sbox 0x53 ≠ 0xED then (.errBadArg, { m with sbox := sbox })
    else (.ok, ⟨true, sbox⟩)

/-- `owcrypt_module_shutdown`. -/
def moduleShutdown (m : Module) : Status × Module :=
  if !m.initialized then (.errUninitialized, m) else (.ok, .zero)

theorem moduleFill_initialized {boot : Bool} {m : Module} {sbox : List UInt8} :
    let r : Status × Module := if m.initialized then (.ok, m)
      else if !boot then (.banK64Boot, m)
      else if byteAt sbox 0x53 ≠ 0xED then (.errBadArg, { m with sbox := sbox })
      else (.ok, ⟨true, sbox⟩)
    r.1 = .ok → r.2.initialized = true := by
  dsimp only
  split
  next hinit => exact fun _ => hinit
  · split
    · exact nofun
    · split
      · exact nofun
      · exact fun _ => rfl

theorem moduleInit_initialized {boot : Bool} {m : Module} (h : (moduleInit boot m).1 = .ok) :
    (moduleInit boot m).2.initialized = true :=
  moduleFill_initialized h

/-! ## Rounds -/

/-- An entry of the S-box. -/
def Module.sub (m : Module) (b : UInt8) : UInt8 := byteAt m.sbox b.toNat

/-- One turn of the loop of `owc_gmul`. -/
def gmulTurn (t : UInt8 × UInt8 × UInt8) : UInt8 × UInt8 × UInt8 :=
  let (p, a, b) := t
  let p := if b &&& 1 ≠ 0 then p ^^^ a else p
  let hi := a &&& 0x80
  let a := a <<< 1
  let a := if hi ≠ 0 then a ^^^ 0x1B else a
  (p, a, b >>> 1)

/-- `owc_gmul`. -/
def gmul (a b : UInt8) : UInt8 := (gmulTurn^[8] (0, a, b)).1

/-- The table `rcon`. -/
def rcon : List UInt8 := [0x01, 0x02, 0x04, 0x08, 0x10, 0x20, 0x40, 0x80, 0x1B, 0x36]

/-- One turn of the second loop of `owc_aes_expand`: the word `i` is added to the
key schedule. -/
def expandTurn (m : Module) (nk : Nat) (rk : List UInt8) (i : Nat) : List UInt8 :=
  let t := (List.range 4).map fun j => byteAt rk (4 * (i - 1) + j)
  let t :=
    if i % nk = 0 then
      let t := [byteAt t 1, byteAt t 2, byteAt t 3, byteAt t 0].map m.sub
      t.set 0 (byteAt t 0 ^^^ byteAt rcon (i / nk - 1))
    else if nk = 8 ∧ i % nk = 4 then t.map m.sub
    else t
  rk ++ (List.range 4).map fun j => byteAt rk (4 * (i - nk) + j) ^^^ byteAt t j

/-- The number of rounds for a key of `keybits` bits. -/
def rounds (keybits : Nat) : Nat := keybits / 32 + 6

/-- `owc_aes_expand`. -/
def aesExpand (m : Module) (key : List UInt8) (keybits : Nat) : List UInt8 :=
  let nk := keybits / 32
  let nw := 4 * (rounds keybits + 1)
  (List.range' nk (nw - nk)).foldl (expandTurn m nk)
    ((List.range (4 * nk)).map (byteAt key))

/-- SubBytes and ShiftRows: row `r` moves left by `r` columns. -/
def subShift (m : Module) (s : List UInt8) : List UInt8 :=
  (List.range 16).map fun i => m.sub (byteAt s (4 * ((i / 4 + i % 4) % 4) + i % 4))

def mixColumns (t : List UInt8) : List UInt8 :=
  (List.range 4).flatMap fun c =>
    let a0 := byteAt t (4 * c)
    let a1 := byteAt t (4 * c + 1)
    let a2 := byteAt t (4 * c + 2)
    let a3 := byteAt t (4 * c + 3)
    [gmul a0 2 ^^^ gmul a1 3 ^^^ a2 ^^^ a3, a0 ^^^ gmul a1 2 ^^^ gmul a2 3 ^^^ a3,
      a0 ^^^ a1 ^^^ gmul a2 2 ^^^ gmul a3 3, gmul a0 3 ^^^ a1 ^^^ a2 ^^^ gmul a3 2]

/-- The round key `r` is added. -/
def addRoundKey (rk s : List UInt8) (r : Nat) : List UInt8 :=
  (List.range 16).map fun i => byteAt s i ^^^ byteAt rk (16 * r + i)

/-- `owc_aes_encrypt_block`. -/
def aesEncryptBlock (m : Module) (rk input : List UInt8) (nr : Nat) : List UInt8 :=
  let s := addRoundKey rk input 0
  let s := (List.range' 1 (nr - 1)).foldl
    (fun s r => addRoundKey rk (mixColumns (subShift m s)) r) s
  addRoundKey rk (subShift m s) nr

@[simp] theorem length_aesEncryptBlock (m : Module) (rk input : List UInt8) (nr : Nat) :
    (aesEncryptBlock m rk input nr).length = 16 := by
  simp [aesEncryptBlock, addRoundKey]

end Crypto
