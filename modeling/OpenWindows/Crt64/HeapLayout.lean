import OpenWindows.Crt64.Heap
import OpenWindows.Lib.Tiling

/-!
# Layouts of the heap

A layout says what stands in each segment: nothing, a large allocation, or an
arena with its blocks in order.  `Shape` relates a layout to memory.  It looks at
the headers, canaries and footers of the blocks only, so writes to payloads keep
it, and a stamp that replaces some blocks of an arena by others of the same total
size changes the layout there and nowhere else.
-/

namespace Crt64

open Memory Tiling

/-! ## Blocks in order -/

/-- A block of an arena. -/
structure Blk where
  size : Nat
  used : Bool
  deriving DecidableEq, Repr

variable {b : Blk} {bs : List Blk} {a x : Nat}

theorem place_cover {a y : Nat} {bs : List Blk} (hlo : a ≤ y) (hhi : y < a + extent Blk.size bs) :
    ∃ x b, (x, b) ∈ place Blk.size a bs ∧ x ≤ y ∧ y < x + b.size := by
  induction bs generalizing a with
  | nil =>
    simp only [extent] at hhi
    omega
  | cons b bs ih =>
    simp only [extent] at hhi
    rcases Nat.lt_or_ge y (a + b.size) with hlt | hge
    · exact ⟨a, b, List.mem_cons_self .., hlo, hlt⟩
    · obtain ⟨x, c, hmem, hin⟩ := ih hge (by omega)
      exact ⟨x, c, List.mem_cons_of_mem _ hmem, hin⟩

/-! ## Blocks in memory -/

def Blk.flags (b : Blk) : Nat := if b.used then flagUsed else 0

/-- The header and the footer of a block. -/
structure BlockAt (m : Mem) (a : Nat) (b : Blk) : Prop where
  size : loadU32 m a = b.size
  flags : loadU32 m (a + 4) = b.flags
  magic : loadU32 m (a + 8) = magicBlk
  canary : loadU32 m (a + b.size - 12) = canaryOf (b.size - 28)
  footSize : loadU32 m (a + b.size - 8) = b.size
  footFlags : loadU32 m (a + b.size - 4) = b.flags

/-- A payload byte of a block at `a`. -/
def Inside (a : Nat) (b : Blk) (x : Nat) : Prop := a + 16 ≤ x ∧ x + 12 < a + b.size

theorem BlockAt.congr {m m' : Mem} (h : BlockAt m a b) (hb : 44 ≤ b.size)
    (hs : SameOn (fun x => a ≤ x ∧ x < a + b.size ∧ ¬ Inside a b x) m m') : BlockAt m' a b := by
  unfold Inside at hs
  have hload : ∀ {p}, a ≤ p → p + 4 ≤ a + b.size → p + 4 ≤ a + 16 ∨ a + b.size ≤ p + 12 →
      loadU32 m' p = loadU32 m p := by
    intro p h1 h2 h3
    exact hs.loadNum_eq fun x hx hx' => ⟨by omega, by omega, by omega⟩
  obtain ⟨h1, h2, h3, h4, h5, h6⟩ := h
  refine ⟨?_, ?_, ?_, ?_, ?_, ?_⟩ <;> rwa [hload (by omega) (by omega) (by omega)]

theorem loadU32_lt (m : Mem) (p : Nat) : loadU32 m p < 2 ^ 32 := by
  have hlt := Bytes.leNum_lt (load m p 4)
  rwa [length_load] at hlt

theorem blkUser_eq {m : Mem} {n : Nat} (h : loadU32 m a = n) (hn : 28 ≤ n)
    (hlt : n < 2 ^ 32) : blkUser m a = n - 28 := by
  unfold blkUser blkHdr blkCnary blkFtar
  rw [h]
  omega

theorem Blk.flags_lt (b : Blk) : b.flags < 2 ^ 32 := by
  unfold Blk.flags
  split <;> decide

theorem canaryOf_lt (n : Nat) : canaryOf n < 2 ^ 32 := by
  have h : n &&& 0xFF < 2 ^ 32 := Nat.lt_of_le_of_lt Nat.and_le_right (by decide)
  exact Nat.or_lt_two_pow (by decide) h

theorem blkStamp_spec (m : Mem) (a : Nat) (hb : 44 ≤ b.size) (hlt : b.size < 2 ^ 32) :
    BlockAt (blkStamp m a b.size b.flags) a b ∧
      SameOn (fun x => x < a ∨ a + b.size ≤ x) m (blkStamp m a b.size b.flags) := by
  unfold blkStamp
  dsimp only
  set m1 := storeU32 m a b.size with hm1
  set m2 := storeU32 m1 (a + 4) b.flags with hm2
  set m3 := storeU32 m2 (a + 8) magicBlk with hm3
  set m4 := storeU32 m3 (a + 12) 0 with hm4
  have hfour : ∀ {m : Mem} {p v : Nat}, v < 2 ^ 32 → loadU32 (storeU32 m p v) p = v := by
    intro m p v hv
    rw [loadU32, storeU32, loadNum_storeNum_self]
    exact Nat.mod_eq_of_lt hv
  have hother : ∀ {m : Mem} {p q v : Nat}, q + 4 ≤ p ∨ p + 4 ≤ q →
      loadU32 (storeU32 m p v) q = loadU32 m q := loadNum_storeNum_of_disjoint
  have hsize : loadU32 m4 a = b.size := by
    rw [hm4, hother (by omega), hm3, hother (by omega), hm2, hother (by omega), hm1, hfour hlt]
  rw [blkUser_eq hsize (by omega) hlt, show a + blkHdr + (b.size - 28) = a + b.size - 12 by
    unfold blkHdr; omega, show a + b.size - blkFtar = a + b.size - 8 from rfl,
    show a + b.size - 8 + 4 = a + b.size - 4 by omega]
  refine ⟨⟨?_, ?_, ?_, ?_, ?_, ?_⟩, ?_⟩
  · rw [hother (by omega), hother (by omega), hother (by omega), hsize]
  · rw [hother (by omega), hother (by omega), hother (by omega), hm4, hother (by omega), hm3,
      hother (by omega), hm2, hfour b.flags_lt]
  · rw [hother (by omega), hother (by omega), hother (by omega), hm4, hother (by omega), hm3,
      hfour (by decide)]
  · rw [hother (by omega), hother (by omega), hfour (canaryOf_lt _)]
  · rw [hother (by omega), hfour hlt]
  · rw [hfour b.flags_lt]
  · have hstore : ∀ {m : Mem} {p v : Nat}, a ≤ p → p + 4 ≤ a + b.size →
        SameOn (fun x => x < a ∨ a + b.size ≤ x) m (storeU32 m p v) := by
      intro m p v h1 h2
      exact sameOn_storeNum fun x hx => by omega
    exact ((((((hstore (by omega) (by omega)).trans (hstore (by omega) (by omega))).trans
      (hstore (by omega) (by omega))).trans (hstore (by omega) (by omega))).trans
      (hstore (by omega) (by omega))).trans (hstore (by omega) (by omega))).trans
      (hstore (by omega) (by omega))

/-! ## Layouts -/

/-- What stands in a segment: nothing, blocks, or one allocation of `user` bytes. -/
inductive SegView where
  | none
  | arena (blocks : List Blk)
  | large (user : Nat)

abbrev Layout := Nat → SegView

def arenaBytes : Nat := segmentDefault - segHdr - endBlockSize

def IsBlock (segs : Nat → Seg) (v : Layout) (a : Nat) (b : Blk) : Prop :=
  ∃ i, i < segMax ∧ ∃ bs, v i = .arena bs ∧ (a, b) ∈ place Blk.size ((segs i).base + segHdr) bs

def IsLarge (segs : Nat → Seg) (v : Layout) (a user : Nat) : Prop :=
  ∃ i, i < segMax ∧ v i = .large user ∧ a = (segs i).base

/-- A payload byte of some block or large allocation. -/
def Payload (segs : Nat → Seg) (v : Layout) (x : Nat) : Prop :=
  (∃ a b, IsBlock segs v a b ∧ Inside a b x) ∨
    ∃ a user, IsLarge segs v a user ∧ a + 16 ≤ x ∧ x < a + 16 + user

/-- A byte of a segment in use. -/
def Held (segs : Nat → Seg) (x : Nat) : Prop :=
  ∃ i, i < segMax ∧ (segs i).active = true ∧ (segs i).base ≤ x ∧ x < (segs i).base + (segs i).size

/-- An arena in memory.  The blocks at the addresses `skip` need not be stamped
yet. -/
structure ArenaAt (skip : Nat → Prop) (m : Mem) (s : Seg) (bs : List Blk) : Prop where
  size : s.size = segmentDefault
  tag : loadU32 m (s.base + 4) = segmentDefault
  big : ∀ b ∈ bs, 44 ≤ b.size
  tiles : extent Blk.size bs = arenaBytes
  blocks : ∀ {a b}, (a, b) ∈ place Blk.size (s.base + segHdr) bs → ¬ skip a → BlockAt m a b
  marker : loadU32 m (s.base + segHdr + arenaBytes) = magicEnd ∧
    loadU32 m (s.base + segHdr + arenaBytes + 4) = flagUsed

/-- A large allocation in memory, in the segment of index `i`. -/
structure LargeAt (m : Mem) (s : Seg) (i user : Nat) : Prop where
  big : largeThreshold ≤ user
  room : user + 20 ≤ s.size
  size : loadU32 m s.base = user % 2 ^ 32
  flags : loadU32 m (s.base + 4) = flagLarge
  magic : loadU32 m (s.base + 8) = magicBlk
  index : loadU32 m (s.base + 12) = i
  canary : loadU32 m (s.base + 16 + user) = canaryOf user

/-- A layout in memory. -/
structure Shape (skip : Nat → Prop) (m : Mem) (segs : Nat → Seg) (v : Layout) : Prop where
  fit : ∀ {i}, i < segMax → (segs i).active = true →
    0x1000 ≤ (segs i).base ∧ (segs i).base + (segs i).size ≤ 2 ^ 64
  apart : ∀ {i j}, i < segMax → j < segMax → i ≠ j → (segs i).active = true →
    (segs j).active = true → (segs i).base + (segs i).size ≤ (segs j).base ∨
      (segs j).base + (segs j).size ≤ (segs i).base
  active : ∀ {i}, i < segMax → ((segs i).active = true ↔ v i ≠ .none)
  arena : ∀ {i bs}, i < segMax → v i = .arena bs → ArenaAt skip m (segs i) bs
  large : ∀ {i user}, i < segMax → v i = .large user → LargeAt m (segs i) i user

variable {skip : Nat → Prop} {m m' : Mem} {segs : Nat → Seg} {v : Layout}

theorem Shape.active_of_arena (h : Shape skip m segs v) {i : Nat} (hi : i < segMax)
    (hv : v i = .arena bs) : (segs i).active = true :=
  (h.active hi).mpr (by rw [hv]; nofun)

variable {user a' : Nat}

theorem Shape.active_of_large (h : Shape skip m segs v) {i : Nat} (hi : i < segMax)
    (hv : v i = .large user) : (segs i).active = true :=
  (h.active hi).mpr (by rw [hv]; nofun)

theorem Shape.segment_room (h : Shape skip m segs v) {i : Nat} (hi : i < segMax)
    (hact : (segs i).active = true) : 64 ≤ (segs i).size := by
  have hview := (h.active hi).mp hact
  cases hv : v i with
  | none => exact absurd hv hview
  | arena bs =>
    rw [(h.arena hi hv).size]
    decide
  | large user =>
    obtain ⟨hbig, hroom, -⟩ := h.large hi hv
    unfold largeThreshold at hbig
    omega

theorem Shape.place_fit (h : Shape skip m segs v) {i : Nat} (hi : i < segMax)
    (hv : v i = .arena bs) (hb : (a, b) ∈ place Blk.size ((segs i).base + segHdr) bs) :
    (segs i).base + 32 ≤ a ∧ a + b.size + 24 ≤ (segs i).base + (segs i).size ∧ 44 ≤ b.size := by
  obtain ⟨hsize, -, hbig, htiles, -⟩ := h.arena hi hv
  have hbounds := place_bounds hb
  have h44 := hbig b (mem_of_mem_place hb)
  rw [htiles] at hbounds
  simp only [arenaBytes, segHdr, endBlockSize, segmentDefault] at hbounds hsize
  omega

theorem Shape.isBlock_fit (h : Shape skip m segs v) (hb : IsBlock segs v a b) :
    0x1000 < a ∧ a + b.size < 2 ^ 64 ∧ 44 ≤ b.size ∧ b.size < 2 ^ 32 := by
  obtain ⟨i, hi, bs, hv, hmem⟩ := hb
  have hfit := h.fit hi (h.active_of_arena hi hv)
  have hplace := h.place_fit hi hv hmem
  have hsize := (h.arena hi hv).size
  unfold segmentDefault at hsize
  omega

theorem Shape.isBlock_apart (h : Shape skip m segs v) {b' : Blk}
    (hb : IsBlock segs v a b) (hb' : IsBlock segs v a' b') :
    (a = a' ∧ b = b') ∨ a + b.size ≤ a' ∨ a' + b'.size ≤ a := by
  obtain ⟨i, hi, bs, hv, hmem⟩ := hb
  obtain ⟨j, hj, bs', hv', hmem'⟩ := hb'
  by_cases hij : i = j
  · subst hij
    rw [hv] at hv'
    cases hv'
    exact place_apart hmem hmem'
  · have hp := h.place_fit hi hv hmem
    have hp' := h.place_fit hj hv' hmem'
    have hap := h.apart hi hj hij (h.active_of_arena hi hv) (h.active_of_arena hj hv')
    omega

theorem Shape.isBlock_isLarge_apart (h : Shape skip m segs v)
    (hb : IsBlock segs v a b) (hl : IsLarge segs v a' user) :
    a + b.size ≤ a' ∨ a' + 20 + user ≤ a := by
  obtain ⟨i, hi, bs, hv, hmem⟩ := hb
  obtain ⟨j, hj, hv', rfl⟩ := hl
  have hij : i ≠ j := by
    rintro rfl
    rw [hv] at hv'
    cases hv'
  have hp := h.place_fit hi hv hmem
  have hroom := (h.large hj hv').room
  have hap := h.apart hi hj hij (h.active_of_arena hi hv) (h.active_of_large hj hv')
  omega

theorem Shape.isLarge_apart (h : Shape skip m segs v) {user' : Nat}
    (hl : IsLarge segs v a user) (hl' : IsLarge segs v a' user') :
    a = a' ∨ a + 20 + user ≤ a' ∨ a' + 20 + user' ≤ a := by
  obtain ⟨i, hi, hv, rfl⟩ := hl
  obtain ⟨j, hj, hv', rfl⟩ := hl'
  by_cases hij : i = j
  · exact .inl (by rw [hij])
  · have hroom := (h.large hi hv).room
    have hroom' := (h.large hj hv').room
    have hap := h.apart hi hj hij (h.active_of_large hi hv) (h.active_of_large hj hv')
    omega

theorem Shape.payload_cases (h : Shape skip m segs v) {i : Nat} (hi : i < segMax)
    (hact : (segs i).active = true) (hlo : (segs i).base ≤ x)
    (hhi : x < (segs i).base + (segs i).size) (hx : Payload segs v x) :
    (∃ bs a b, v i = .arena bs ∧ (a, b) ∈ place Blk.size ((segs i).base + segHdr) bs ∧
      Inside a b x) ∨
      ∃ user, v i = .large user ∧ (segs i).base + 16 ≤ x ∧ x < (segs i).base + 16 + user := by
  rcases hx with ⟨a, b, ⟨j, hj, bs, hv, hmem⟩, hin⟩ | ⟨a, user, ⟨j, hj, hv, rfl⟩, hin⟩
  · by_cases hij : j = i
    · subst hij
      exact .inl ⟨bs, a, b, hv, hmem, hin⟩
    · have hp := h.place_fit hj hv hmem
      have hap := h.apart hj hi hij (h.active_of_arena hj hv) hact
      unfold Inside at hin
      omega
  · by_cases hij : j = i
    · subst hij
      exact .inr ⟨user, hv, hin⟩
    · have hroom := (h.large hj hv).room
      have hap := h.apart hj hi hij (h.active_of_large hj hv) hact
      omega

variable {s : Seg}

theorem ArenaAt.restamp {bs' : List Blk} {skip' : Nat → Prop}
    (h : ArenaAt skip m s bs) (hbig : ∀ b ∈ bs', 44 ≤ b.size)
    (htiles : extent Blk.size bs' = arenaBytes)
    (hblocks : ∀ {a b}, (a, b) ∈ place Blk.size (s.base + segHdr) bs' → ¬ skip' a → BlockAt m' a b)
    (hs : SameOn (fun x => (s.base ≤ x ∧ x < s.base + s.size) ∧
      (x < s.base + segHdr ∨ s.base + segHdr + arenaBytes ≤ x)) m m') :
    ArenaAt skip' m' s bs' := by
  have hhdr : segHdr = 32 := rfl
  have hbytes : s.size = segHdr + arenaBytes + 24 := h.size
  have hload : ∀ {p}, s.base ≤ p → p + 4 ≤ s.base + s.size →
      p + 4 ≤ s.base + segHdr ∨ s.base + segHdr + arenaBytes ≤ p →
      loadU32 m' p = loadU32 m p := by
    intro p h1 h2 h3
    exact hs.loadNum_eq fun x hx hx' => ⟨⟨by omega, by omega⟩, by omega⟩
  refine ⟨h.size, ?_, hbig, htiles, hblocks, ⟨?_, ?_⟩⟩
  · rw [hload (by omega) (by omega) (by omega)]
    exact h.tag
  · rw [hload (by omega) (by omega) (by omega)]
    exact h.marker.1
  · rw [hload (by omega) (by omega) (by omega)]
    exact h.marker.2

theorem LargeAt.congr {i : Nat} (h : LargeAt m s i user)
    (hs : SameOn (fun x => (s.base ≤ x ∧ x < s.base + s.size) ∧
      ¬ (s.base + 16 ≤ x ∧ x < s.base + 16 + user)) m m') : LargeAt m' s i user := by
  obtain ⟨hbig, hroom, hsize, hflags, hmagic, hindex, hcanary⟩ := h
  have hload : ∀ {p}, s.base ≤ p → p + 4 ≤ s.base + s.size →
      p + 4 ≤ s.base + 16 ∨ s.base + 16 + user ≤ p → loadU32 m' p = loadU32 m p := by
    intro p h1 h2 h3
    exact hs.loadNum_eq fun x hx hx' => ⟨⟨by omega, by omega⟩, by omega⟩
  refine ⟨hbig, hroom, ?_, ?_, ?_, ?_, ?_⟩ <;> rwa [hload (by omega) (by omega) (by omega)]

theorem Shape.congr (h : Shape skip m segs v)
    (hs : SameOn (fun x => Held segs x ∧ ¬ Payload segs v x) m m') : Shape skip m' segs v where
  fit := h.fit
  apart := h.apart
  active := h.active
  arena := by
    intro i bs hi hv
    have harena := h.arena hi hv
    have hact := h.active_of_arena hi hv
    -- bytes of the arena outside the payloads of its blocks
    have hoff : ∀ {x}, (segs i).base ≤ x ∧ x < (segs i).base + (segs i).size →
        (∀ {a b}, (a, b) ∈ place Blk.size ((segs i).base + segHdr) bs → ¬ Inside a b x) →
        Held segs x ∧ ¬ Payload segs v x := by
      rintro x ⟨hlo, hhi⟩ hout
      refine ⟨⟨i, hi, hact, hlo, hhi⟩, fun hx => ?_⟩
      rcases h.payload_cases hi hact hlo hhi hx with ⟨bs', a, b, hv', hmem, hin⟩ | ⟨user, hv', -⟩
      · rw [hv] at hv'
        cases hv'
        exact hout hmem hin
      · rw [hv] at hv'
        cases hv'
    refine harena.restamp harena.big harena.tiles ?_ (hs.mono fun x hx => hoff hx.1 ?_)
    · intro a b hmem hskip
      have hp := h.place_fit hi hv hmem
      refine (harena.blocks hmem hskip).congr hp.2.2 (hs.mono fun x hx => ?_)
      refine hoff (by omega) ?_
      intro a' b' hmem' hin
      rcases place_apart hmem hmem' with ⟨rfl, rfl⟩ | hap
      · exact hx.2.2 hin
      · unfold Inside at hin
        omega
    · intro a b hmem hin
      have hb := place_bounds hmem
      rw [harena.tiles] at hb
      unfold Inside at hin
      omega
  large := by
    intro i user hi hv
    have hact := h.active_of_large hi hv
    refine (h.large hi hv).congr (hs.mono fun x ⟨hx, hout⟩ => ⟨⟨i, hi, hact, hx⟩, fun hpay => ?_⟩)
    rcases h.payload_cases hi hact hx.1 hx.2 hpay with ⟨bs', a, b, hv', -⟩ | ⟨user', hv', hin⟩
    · rw [hv] at hv'
      cases hv'
    · rw [hv] at hv'
      cases hv'
      exact hout hin

/-! ## Replacing blocks -/

/-- The address of the blocks behind `pre` in an arena. -/
def blockAddr (s : Seg) (pre : List Blk) : Nat := s.base + segHdr + extent Blk.size pre

theorem mem_place_middle {pre mid post : List Blk} :
    (a, b) ∈ place Blk.size (s.base + segHdr) (pre ++ mid ++ post) ↔
      (a, b) ∈ place Blk.size (s.base + segHdr) pre ∨
        (a, b) ∈ place Blk.size (blockAddr s pre) mid ∨
        (a, b) ∈ place Blk.size (blockAddr s pre + extent Blk.size mid) post := by
  rw [List.append_assoc, place_append, place_append, List.mem_append, List.mem_append]
  rfl

theorem mem_place_outside {pre mid post : List Blk} (hpos : ∀ b ∈ pre ++ mid ++ post, 44 ≤ b.size) :
    (a, b) ∈ place Blk.size (s.base + segHdr) pre ∨
        (a, b) ∈ place Blk.size (blockAddr s pre + extent Blk.size mid) post ↔
      (a, b) ∈ place Blk.size (s.base + segHdr) (pre ++ mid ++ post) ∧
        (a + b.size ≤ blockAddr s pre ∨ blockAddr s pre + extent Blk.size mid ≤ a) := by
  rw [mem_place_middle]
  constructor
  · rintro (h | h)
    · exact ⟨.inl h, .inl (place_bounds h).2⟩
    · exact ⟨.inr (.inr h), .inr (place_bounds h).1⟩
  · rintro ⟨h | h | h, hout⟩
    · exact .inl h
    · have hb := place_bounds h
      have h44 := hpos b (by simp [mem_of_mem_place h])
      omega
    · exact .inr h

def replaceIn (v : Layout) (i : Nat) (bs : List Blk) : Layout := Function.update v i (.arena bs)

section Replace

variable {i : Nat} {pre mid mid' post : List Blk}

theorem Shape.isBlock_replace (h : Shape skip m segs v) (hi : i < segMax)
    (hv : v i = .arena (pre ++ mid ++ post)) (hext : extent Blk.size mid' = extent Blk.size mid) :
    IsBlock segs (replaceIn v i (pre ++ mid' ++ post)) a b ↔
      (IsBlock segs v a b ∧ (a + b.size ≤ blockAddr (segs i) pre ∨
        blockAddr (segs i) pre + extent Blk.size mid ≤ a)) ∨
      (a, b) ∈ place Blk.size (blockAddr (segs i) pre) mid' := by
  have harena := h.arena hi hv
  constructor
  · rintro ⟨j, hj, bs, hvj, hmem⟩
    by_cases hij : j = i
    · subst hij
      rw [replaceIn, Function.update_self] at hvj
      cases hvj
      rcases mem_place_middle.mp hmem with hm | hm | hm
      · have hout := (mem_place_outside harena.big).mp (.inl hm)
        exact .inl ⟨⟨j, hj, _, hv, hout.1⟩, hout.2⟩
      · exact .inr hm
      · rw [hext] at hm
        have hout := (mem_place_outside harena.big).mp (.inr hm)
        exact .inl ⟨⟨j, hj, _, hv, hout.1⟩, hout.2⟩
    · rw [replaceIn, Function.update_of_ne hij] at hvj
      have hp := h.place_fit hj hvj hmem
      have hap := h.apart hj hi hij (h.active_of_arena hj hvj) (h.active_of_arena hi hv)
      have htiles := harena.tiles
      have hsize := harena.size
      simp only [extent_append] at htiles
      refine .inl ⟨⟨j, hj, bs, hvj, hmem⟩, ?_⟩
      unfold blockAddr
      simp only [arenaBytes, segHdr, endBlockSize, segmentDefault] at htiles hsize ⊢
      omega
  · rintro (⟨⟨j, hj, bs, hvj, hmem⟩, hout⟩ | hmem)
    · by_cases hij : j = i
      · subst hij
        rw [hv] at hvj
        cases hvj
        refine ⟨j, hj, _, Function.update_self .., mem_place_middle.mpr ?_⟩
        rcases (mem_place_outside harena.big).mpr ⟨hmem, hout⟩ with hm | hm
        · exact .inl hm
        · rw [← hext] at hm
          exact .inr (.inr hm)
      · refine ⟨j, hj, bs, ?_, hmem⟩
        rw [replaceIn, Function.update_of_ne hij, hvj]
    · exact ⟨i, hi, _, Function.update_self .., mem_place_middle.mpr (.inr (.inl hmem))⟩

theorem Shape.replace (h : Shape skip m segs v) (hi : i < segMax)
    (hv : v i = .arena (pre ++ mid ++ post)) (hext : extent Blk.size mid' = extent Blk.size mid)
    (hbig : ∀ b ∈ mid', 44 ≤ b.size) {skip' : Nat → Prop}
    (hskip : ∀ {a b}, IsBlock segs v a b → ¬ skip' a → skip a →
      blockAddr (segs i) pre ≤ a ∧ a < blockAddr (segs i) pre + extent Blk.size mid)
    (hblocks : ∀ {a b}, (a, b) ∈ place Blk.size (blockAddr (segs i) pre) mid' → ¬ skip' a →
      BlockAt m' a b)
    (hsame : SameOn (fun x => x < blockAddr (segs i) pre ∨
      blockAddr (segs i) pre + extent Blk.size mid ≤ x)
      m m') :
    Shape skip' m' segs (replaceIn v i (pre ++ mid' ++ post)) := by
  have harena := h.arena hi hv
  have hact := h.active_of_arena hi hv
  have htiles := harena.tiles
  simp only [extent_append] at htiles
  have hrange : (segs i).base + segHdr ≤ blockAddr (segs i) pre ∧
      blockAddr (segs i) pre + extent Blk.size mid ≤ (segs i).base + segHdr + arenaBytes := by
    unfold blockAddr
    omega
  -- blocks outside the part keep their stamps
  have hkeep : ∀ {a b}, IsBlock segs v a b → ¬ skip' a →
      (a + b.size ≤ blockAddr (segs i) pre ∨ blockAddr (segs i) pre + extent Blk.size mid ≤ a) →
      BlockAt m' a b := by
    intro a b hb hns hout
    have hfit := h.isBlock_fit hb
    have hns' : ¬ skip a := fun hs => by
      have := hskip hb hns hs
      omega
    obtain ⟨j, hj, bs, hvj, hmem⟩ := hb
    refine ((h.arena hj hvj).blocks hmem hns').congr hfit.2.2.1 (hsame.mono fun x hx => ?_)
    omega
  -- and so does everything in another segment
  have hother : ∀ {j x}, j < segMax → j ≠ i → (segs j).active = true →
      (segs j).base ≤ x ∧ x < (segs j).base + (segs j).size →
      x < blockAddr (segs i) pre ∨ blockAddr (segs i) pre + extent Blk.size mid ≤ x := by
    intro j x hj hij hactj hx
    have hap := h.apart hj hi hij hactj hact
    have hsz : (segs i).size = segHdr + arenaBytes + 24 := harena.size
    omega
  refine ⟨h.fit, h.apart, ?_, ?_, ?_⟩
  · intro j hj
    by_cases hij : j = i
    · subst hij
      rw [replaceIn, Function.update_self]
      exact ⟨fun _ => nofun, fun _ => hact⟩
    · rw [replaceIn, Function.update_of_ne hij]
      exact h.active hj
  · intro j bs hj hvj
    by_cases hij : j = i
    · subst hij
      rw [replaceIn, Function.update_self] at hvj
      cases hvj
      refine harena.restamp ?_ ?_ ?_ (hsame.mono fun x hx => by omega)
      · intro b hb
        rcases List.mem_append.mp hb with hb | hb
        · rcases List.mem_append.mp hb with hb | hb
          · exact harena.big b (by simp [hb])
          · exact hbig b hb
        · exact harena.big b (by simp [hb])
      · simp only [extent_append]
        omega
      · intro a b hmem hns
        rcases mem_place_middle.mp hmem with hm | hm | hm
        · have hout := (mem_place_outside harena.big).mp (.inl hm)
          exact hkeep ⟨j, hj, _, hv, hout.1⟩ hns hout.2
        · exact hblocks hm hns
        · rw [hext] at hm
          have hout := (mem_place_outside harena.big).mp (.inr hm)
          exact hkeep ⟨j, hj, _, hv, hout.1⟩ hns hout.2
    · rw [replaceIn, Function.update_of_ne hij] at hvj
      have hactj := h.active_of_arena hj hvj
      have harenaj := h.arena hj hvj
      refine harenaj.restamp harenaj.big harenaj.tiles ?_
        (hsame.mono fun x hx => hother hj hij hactj hx.1)
      intro a b hmem hns
      have hp := h.place_fit hj hvj hmem
      have hap := h.apart hj hi hij hactj hact
      have hsz : (segs i).size = segHdr + arenaBytes + 24 := harena.size
      refine hkeep ⟨j, hj, bs, hvj, hmem⟩ hns ?_
      omega
  · intro j user hj hvj
    have hij : j ≠ i := by
      rintro rfl
      rw [replaceIn, Function.update_self] at hvj
      cases hvj
    rw [replaceIn, Function.update_of_ne hij] at hvj
    exact (h.large hj hvj).congr
      (hsame.mono fun x hx => hother hj hij (h.active_of_large hj hvj) hx.1)

end Replace

end Crt64
