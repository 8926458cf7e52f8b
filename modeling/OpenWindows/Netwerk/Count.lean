import OpenWindows.Netwerk.Run

/-!
# The count of links

`link_count` should be the number of links in use, those with an id.  Allocating and freeing keep
it so, and no other call but one touches either.  That one is `netwerk_link_reset`: it wipes the id
of a link in use and cannot reach the count.  From then on the session takes one link for used that
is free, and nothing gives it back.
-/

namespace Netwerk

open StepSystem
open Crypto (Ptr)

/-! ## The links in use -/

def Session.used (s : Session) : Finset (Fin maxLinks) := Finset.univ.filter fun i => (s.links i).id ≠ 0

variable {s s' : Session} {w : World} {i : Fin maxLinks}

@[simp] theorem Session.mem_used : i ∈ s.used ↔ (s.links i).id ≠ 0 := by
  simp [Session.used]

theorem Session.used_setLink (s : Session) (i : Fin maxLinks) (ln : Link) :
    (s.setLink i ln).used = if ln.id = 0 then s.used.erase i else insert i s.used := by
  ext j
  by_cases hj : j = i
  · subst hj
    split <;> simp [*]
  · split <;> simp [Session.setLink_links_ne _ _ hj, hj]

/-- The count is the number of the links in use. -/
def Session.Counted (s : Session) : Prop := s.linkCount.toNat = s.used.card

theorem Session.card_used_le (s : Session) : s.used.card ≤ maxLinks := by
  simpa using Finset.card_le_univ s.used

/-- The call is a reset of a link in use. -/
def ResetsUsed (w : World) : Op → Prop
  | .onLink i .reset => (w.session.links i).id ≠ 0
  | _ => False

/-! ## Calls that leave the registry alone -/

/-- The count and the ids are the same. -/
structure SameUse (s s' : Session) : Prop where
  count : s'.linkCount = s.linkCount
  id : ∀ i, (s'.links i).id = (s.links i).id

theorem SameUse.refl (s : Session) : SameUse s s := ⟨rfl, fun _ => rfl⟩

theorem SameUse.counted_iff (h : SameUse s s') : s'.Counted ↔ s.Counted := by
  have hused : s'.used = s.used := by
    ext i
    simp [h.id i]
  rw [Session.Counted, Session.Counted, hused, h.count]

theorem SameUse.of_update {ln : Link} (hcount : s'.linkCount = s.linkCount)
    (hlinks : s'.links = Function.update s.links i ln) (hid : ln.id = (s.links i).id) :
    SameUse s s' := by
  refine ⟨hcount, fun j => ?_⟩
  rw [hlinks]
  by_cases hj : j = i
  · subst hj
    rw [Function.update_self, hid]
  · rw [Function.update_of_ne hj]

theorem SameUse.setLink {ln : Link} (h : ln.id = (s.links i).id) : SameUse s (s.setLink i ln) :=
  .of_update rfl rfl h

theorem Link.tick_id (ln : Link) (now : UInt64) (clock : Option UInt64) :
    (ln.tick now clock).2.id = ln.id := by
  unfold Link.tick
  split
  · rfl
  next t =>
    dsimp only
    repeat' split
    all_goals rfl

theorem Link.tx_id (ln : Link) (now : UInt64) (clock : Option UInt64) :
    (ln.tx now clock).2.id = ln.id := by
  unfold Link.tx
  split
  · rfl
  · split
    · rfl
    · rfl

theorem LinkCall.run_id {ln : Link} {call : LinkCall} (h : call ≠ .reset) :
    (call.run ln).2.id = ln.id := by
  cases call with
  | reset => exact absurd rfl h
  | activate =>
    simp only [LinkCall.run, Link.activate]
    split
    · rfl
    · split
      · rfl
      · rfl
  | close => rfl
  | setKeepalive keepaliveMs timeoutMs =>
    simp only [LinkCall.run, Link.setKeepalive]
    split
    · rfl
    · split
      · rfl
      · rfl
  | setBanSignal hook ctx => rfl
  | tx now clock | rx now clock => exact ln.tx_id now clock
  | tick now clock => exact ln.tick_id now clock

theorem sameUse_noteSeal (s : Session) (i : Fin maxLinks) (frameLen : Nat) :
    SameUse s (noteSeal s i frameLen) := by
  refine .of_update ?_ (noteSeal_links s i frameLen) rfl
  unfold noteSeal
  dsimp only
  split
  · rfl
  · rfl

theorem sameUse_noteAuthFail (s : Session) (i : Fin maxLinks) : SameUse s (noteAuthFail s i) := by
  refine .of_update ?_ (noteAuthFail_links s i) rfl
  unfold noteAuthFail
  dsimp only
  split
  · rfl
  · rfl

theorem sameUse_noteBan (s : Session) (i : Fin maxLinks) : SameUse s (noteBan s i) := by
  refine .of_update ?_ (noteBan_links s i) rfl
  unfold noteBan
  dsimp only
  split
  · rfl
  · rfl

theorem Link.replayAccept_id (ln : Link) (seq : UInt64) : (ln.replayAccept seq).id = ln.id := by
  unfold Link.replayAccept
  split
  · rfl
  · rfl

theorem sameUse_noteAccept (s : Session) (i : Fin maxLinks) (seq : UInt64) (frameLen : Nat) :
    SameUse s (noteAccept s i seq frameLen) := by
  refine .of_update ?_ (noteAccept_links s i seq frameLen) ((s.links i).replayAccept_id seq)
  unfold noteAccept
  dsimp only
  split
  · rfl
  · rfl

theorem OpenEnd.sameUse {frame : Ptr} {st : Status} (h : OpenEnd s i frame st s') : SameUse s s' := by
  cases h with
  | refused => exact .refl s
  | replayed => exact .setLink rfl
  | forged => exact sameUse_noteAuthFail s i
  | banned => exact sameUse_noteBan s i
  | accepted => exact sameUse_noteAccept s i _ _

/-! ## The registry -/

theorem Session.freeSlot_eq_some (h : s.freeSlot = some i) : (s.links i).id = 0 := by
  simpa using List.find?_some h

theorem Session.freeSlot_eq_none (h : s.freeSlot = none) (i : Fin maxLinks) :
    (s.links i).id ≠ 0 := by
  simpa using List.find?_eq_none.1 h i (List.mem_finRange i)

theorem Session.Counted.full (h : s.Counted) {dir : Nat} {peer : Ptr}
    (hfull : (s.alloc dir peer).1 = .errLinksFull) (i : Fin maxLinks) : (s.links i).id ≠ 0 := by
  unfold Session.alloc at hfull
  split at hfull
  · simp at hfull
  · split at hfull
    · simp at hfull
    · split at hfull
      next hcount =>
        rw [h] at hcount
        have hall : s.used = Finset.univ :=
          Finset.card_eq_iff_eq_univ _ |>.1 (by simpa using le_antisymm s.card_used_le hcount)
        have hmem : i ∈ s.used := by
          rw [hall]
          exact Finset.mem_univ i
        exact Session.mem_used.1 hmem
      · split at hfull
        next hslot => exact Session.freeSlot_eq_none hslot i
        · simp at hfull

theorem Session.Counted.alloc (h : s.Counted) (dir : Nat) (peer : Ptr) :
    (s.alloc dir peer).2.2.Counted := by
  unfold Session.alloc
  split
  · exact h
  · split
    · exact h
    next dir' =>
      split
      · exact h
      next hcount =>
        split
        · exact h
        next i hslot =>
          have hfree : i ∉ s.used := by
            simp [Session.freeSlot_eq_some hslot]
          have hid : UInt16.ofNat (i.val + 1) ≠ 0 := by
            rw [ne_eq, ← UInt16.toNat_inj, UInt16.toNat_ofNat']
            have hlt : i.val < 16 := i.isLt
            rw [Nat.mod_eq_of_lt (by omega)]
            exact Nat.succ_ne_zero _
          have hone : (s.linkCount + 1).toNat = s.linkCount.toNat + 1 := by
            have hlt : s.linkCount.toNat < 16 := Nat.lt_of_not_le hcount
            rw [UInt32.toNat_add, UInt32.toNat_one, Nat.mod_eq_of_lt (by omega)]
          rw [Session.Counted] at h ⊢
          change (s.linkCount + 1).toNat = (s.setLink i _).used.card
          rw [Session.used_setLink, if_neg hid, Finset.card_insert_of_notMem hfree, hone, h]

theorem Session.Counted.free (h : s.Counted) (i : Fin maxLinks) : (s.free i).2.Counted := by
  unfold Session.free
  dsimp only
  split
  · exact h
  next hid =>
    have hused : i ∈ s.used := Session.mem_used.2 hid
    have hpos : 0 < s.used.card := Finset.card_pos.2 ⟨i, hused⟩
    rw [Session.Counted] at h ⊢
    have hsome : s.linkCount > 0 := by
      rw [gt_iff_lt, UInt32.lt_iff_toNat_lt, h]
      exact hpos
    have hone : (s.linkCount - 1).toNat = s.linkCount.toNat - 1 := by
      rw [UInt32.toNat_sub_of_le]
      · rfl
      · rw [UInt32.le_iff_toNat_le, h]
        exact hpos
    change (if s.linkCount > 0 then s.linkCount - 1 else s.linkCount).toNat =
      (s.setLink i _).used.card
    rw [Session.used_setLink, if_pos rfl, if_pos hsome, Finset.card_erase_of_mem hused, hone, h]

/-! ## Runs -/

theorem counted_step_iff (h : w.session.Counted) (op : Op) :
    (w.next op).session.Counted ↔ ¬ ResetsUsed w op := by
  cases op with
  | moduleInit k64 boot => simpa [World.next, moduleInit_session, ResetsUsed] using h
  | moduleShutdown => simpa [World.next, moduleShutdown_session, ResetsUsed] using h
  | cryptoInit boot | cryptoShutdown => simpa [World.next, ResetsUsed] using h
  | sessionInit => simp [World.next, ResetsUsed, Session.Counted, Session.used, Session.init]
  | sessionReset => simp [World.next, ResetsUsed, Session.Counted, Session.used, Session.reset]
  | sessionSetBanSignal hook ctx =>
    have hsame : SameUse w.session (w.session.setBanSignal hook ctx) := ⟨rfl, fun _ => rfl⟩
    simpa [World.next, ResetsUsed, hsame.counted_iff] using h
  | alloc dir peer => simpa [World.next, ResetsUsed] using h.alloc dir peer
  | free i => simpa [World.next, ResetsUsed] using h.free i
  | onLink i call =>
    by_cases hreset : call = .reset
    · subst hreset
      simp only [World.next, LinkCall.run, Link.reset, ResetsUsed, ne_eq, not_not]
      rw [Session.Counted] at h ⊢
      rw [Session.used_setLink, if_pos rfl]
      change w.session.linkCount.toNat = _ ↔ _
      by_cases hid : (w.session.links i).id = 0
      · rw [Finset.erase_eq_of_notMem (by simp [hid])]
        simp [h, hid]
      · have hused : i ∈ w.session.used := Session.mem_used.2 hid
        have hpos : 0 < w.session.used.card := Finset.card_pos.2 ⟨i, hused⟩
        rw [Finset.card_erase_of_mem hused]
        simp only [hid, iff_false]
        omega
    · have hsame : SameUse w.session (w.session.setLink i (call.run (w.session.links i)).2) :=
        .setLink (LinkCall.run_id hreset)
      have hguard : ¬ ResetsUsed w (.onLink i call) := by
        cases call <;> first | exact absurd rfl hreset | exact not_false
      simpa [World.next, hguard, hsame.counted_iff] using h
  | sealLinkFrame i key seq plain frame frameLen =>
    have hsame : SameUse w.session (w.sealFrame i key seq plain frame frameLen).session := by
      rw [World.sealFrame]
      rcases sealLinkFrame_cases w.crypto w.session i key seq plain frame frameLen with
        ⟨-, heq⟩ | ⟨-, total, heq⟩
      · rw [heq]
        exact .refl _
      · rw [heq]
        exact sameUse_noteSeal _ i total
    simpa [World.next, ResetsUsed, hsame.counted_iff] using h
  | openLinkFrame i key frame plainOut lenOut scanBan =>
    have hsame : SameUse w.session (w.openFrame i key frame plainOut lenOut scanBan).session :=
      (openLinkFrame_end w.crypto w.session i key frame plainOut lenOut scanBan).sameUse
    simpa [World.next, ResetsUsed, hsame.counted_iff] using h

/-- The count is right, and a session that says it is full has every link in use. -/
def Session.Registered (s : Session) : Prop :=
  s.linkCount.toNat = s.used.card ∧
    ∀ dir peer, (s.alloc dir peer).1 = .errLinksFull → ∀ i, (s.links i).id ≠ 0

theorem Session.registered_iff : s.Registered ↔ s.Counted :=
  ⟨fun h => h.1, fun h => ⟨h, fun _ _ hfull => h.full hfull⟩⟩

/-- The count is right in every state of a run, exactly when no call of it resets a link in use. -/
theorem linkCount_iff (hw : w.session = .init) (ops : List Op) :
    (∀ pre, pre <+: ops → (pre.foldl World.next w).session.Registered) ↔
      Along World.next (fun w op => ¬ ResetsUsed w op) w ops := by
  simp only [Session.registered_iff]
  refine reached_iff_along (I := fun w : World => w.session.Counted) ?_ ?_ ops
  · intro w op hcounted
    exact counted_step_iff hcounted op
  · simp [hw, Session.Counted, Session.used, Session.init]

theorem linkCount_iff_sample :
    (∀ pre, pre <+: [Op.alloc 1 none, .free 0, .onLink 0 .reset] →
      (pre.foldl World.next { session := .init }).session.Registered) ↔
      Along World.next (fun w op => ¬ ResetsUsed w op) { session := .init }
        [.alloc 1 none, .free 0, .onLink 0 .reset] :=
  linkCount_iff (w := { session := .init }) rfl _

/-- Sixteen links are given out and reset: the table is empty, and the session is full. -/
theorem links_full_of_resets : ¬ ∀ (ops : List Op),
    (∀ op ∈ ops, (∃ dir peer, op = .alloc dir peer) ∨ (∃ i, op = .free i) ∨
      ∃ i, op = .onLink i .reset) →
    (ops.foldl World.next { session := .init }).session.Registered := by
  intro h
  have hbad := h ((List.replicate 16 [Op.alloc 1 none, .onLink 0 .reset]).flatten) (by
    intro op hop
    simp only [List.mem_flatten, List.mem_replicate] at hop
    obtain ⟨l, ⟨-, rfl⟩, hop⟩ := hop
    simp only [List.mem_cons, List.not_mem_nil, or_false] at hop
    rcases hop with rfl | rfl
    · exact .inl ⟨1, none, rfl⟩
    · exact .inr (.inr ⟨0, rfl⟩))
  refine hbad.2 1 none ?_ 0 ?_
  · decide
  · decide

end Netwerk
