import OpenWindows.Netwerk.Replay

/-!
# Banned links

A BANcode in an opened frame bans the link.  No call but those that wipe the link,
free it or close it takes it out of this state, and until then it seals and opens
nothing.
-/

namespace Netwerk

open Crypto (Ptr Module)
open StepSystem

/-- The calls that take link `i` out of the banned state: those that wipe it or give
its slot out again, `netwerk_link_free` and `netwerk_link_close`. -/
def Lifts (i : Fin maxLinks) (w : World) : Op → Prop
  | .sessionInit => True
  | .sessionReset => True
  | .alloc dir peer => (w.session.alloc dir peer).2.1 = some i
  | .free j => j = i
  | .onLink j .reset => j = i
  | .onLink j .close => j = i
  | _ => False

variable {w w' : World} {i : Fin maxLinks}

theorem LinkCall.run_banned {ln : Link} {call : LinkCall} (h : ln.state = .banned)
    (hreset : call ≠ .reset) (hclose : call ≠ .close) : (call.run ln).2.state = .banned := by
  have htx (now : UInt64) (clock : Option UInt64) : (ln.tx now clock).2.state = .banned := by
    unfold Link.tx
    split
    · exact h
    · rw [if_pos h]
      exact h
  cases call with
  | reset => exact absurd rfl hreset
  | close => exact absurd rfl hclose
  | activate =>
    simp only [LinkCall.run, Link.activate, if_pos h]
    exact h
  | setKeepalive keepaliveMs timeoutMs =>
    simp only [LinkCall.run, Link.setKeepalive]
    split
    · exact h
    · split
      · exact h
      · exact h
  | setBanSignal hook ctx => exact h
  | tx now clock | rx now clock => exact htx now clock
  | tick now clock =>
    simp only [LinkCall.run, Link.tick]
    split
    · exact h
    · rw [if_pos h]
      exact h

theorem OpenEnd.of_banned {s s' : Session} {frame : Ptr} {st : Status}
    (h : OpenEnd s i frame st s') (hban : (s.links i).state = .banned) :
    st ≠ .ok ∧ (s'.links i).state = .banned := by
  cases h with
  | refused hst => exact ⟨hst, hban⟩
  | replayed =>
    rw [Session.setLink_links_self]
    exact ⟨nofun, hban⟩
  | forged =>
    rw [noteAuthFail_links, Function.update_self]
    exact ⟨nofun, hban⟩
  | banned hnot | accepted _ _ hnot _ => exact absurd hban hnot

theorem banned_step {op : Op} (hban : (w.session.links i).state = .banned) (hop : ¬ Lifts i w op) :
    ((w.next op).session.links i).state = .banned := by
  cases op with
  | moduleInit k64 boot =>
    simp only [World.next, moduleInit_session]
    exact hban
  | moduleShutdown =>
    simp only [World.next, moduleShutdown_session]
    exact hban
  | cryptoInit boot => exact hban
  | cryptoShutdown => exact hban
  | sessionInit | sessionReset => exact absurd trivial hop
  | sessionSetBanSignal hook ctx => exact hban
  | alloc dir peer =>
    simp only [World.next, Session.alloc_links hop]
    exact hban
  | free j =>
    simp only [World.next, Session.free_links (Ne.symm hop)]
    exact hban
  | onLink j call =>
    simp only [World.next]
    by_cases hij : i = j
    · subst hij
      rw [Session.setLink_links_self]
      refine LinkCall.run_banned hban ?_ ?_
      · rintro rfl
        exact hop rfl
      · rintro rfl
        exact hop rfl
    · rw [Session.setLink_links_ne _ _ hij]
      exact hban
  | sealLinkFrame j key seq plain frame frameLen =>
    simp only [World.next, World.sealFrame]
    rcases sealLinkFrame_cases w.crypto w.session j key seq plain frame frameLen with
      ⟨_, heq⟩ | ⟨_, total, heq⟩
    · rw [heq]
      exact hban
    · rw [heq, noteSeal_links]
      by_cases hij : i = j
      · subst hij
        rw [Function.update_self]
        exact hban
      · rw [Function.update_of_ne hij]
        exact hban
  | openLinkFrame j key frame plainOut lenOut scanBan =>
    have hend := openLinkFrame_end w.crypto w.session j key frame plainOut lenOut scanBan
    by_cases hij : i = j
    · subst hij
      exact (hend.of_banned hban).2
    · simp only [World.next, World.openFrame, hend.links_ne hij]
      exact hban

/-- A banned link stays banned, and seals and opens nothing, over every run of calls
none of which wipes, frees or closes it. -/
theorem banned_until_lifted (hban : (w.session.links i).state = .banned) {ops : List Op}
    (hrun : Calls (fun w op => ¬ Lifts i w op) World.next w ops w') :
    (w'.session.links i).state = .banned ∧
    (∀ key seq plain frame frameLen, (w'.sealFrame i key seq plain frame frameLen).status ≠ .ok) ∧
    ∀ key frame plainOut lenOut scanBan,
      (w'.openFrame i key frame plainOut lenOut scanBan).status ≠ .ok := by
  have hstays : (w'.session.links i).state = .banned :=
    Calls.invariant (P := fun w => (w.session.links i).state = .banned)
      (fun _ _ h hop => banned_step h hop) hrun hban
  refine ⟨hstays, fun key seq plain frame frameLen => ?_,
    fun key frame plainOut lenOut scanBan => ?_⟩
  · rcases sealLinkFrame_cases w'.crypto w'.session i key seq plain frame frameLen with
      ⟨hst, _⟩ | ⟨hnot, _⟩
    · exact hst
    · exact absurd hstays hnot
  · exact ((openLinkFrame_end ..).of_banned hstays).1

theorem maxLinks_pos : 0 < maxLinks := by decide

def banningCalls (key : List UInt8) : List Op :=
  [.moduleInit true true, .sessionInit, .alloc 0 none,
    .openLinkFrame ⟨0, maxLinks_pos⟩ (some key) (some (linkFrame key 1 [0x43, 0xA3, 0x11, 0x00]))
      (some (List.replicate 4 0)) true true]

theorem banningCalls_run (key : List UInt8) :
    Calls (fun _ _ => True) World.next {} (banningCalls key) ((banningCalls key).foldl World.next {}) :=
  .snoc (.snoc (.snoc (.snoc .nil trivial) trivial) trivial) trivial

theorem sealLinkFrame_congr {m m' : Module} (h : m.initialized = m'.initialized) (s : Session)
    (i : Fin maxLinks) (key : Ptr) (seq : UInt64) (plain frame : Ptr) (frameLen : Option Nat) :
    sealLinkFrame m s i key seq plain frame frameLen =
      sealLinkFrame m' s i key seq plain frame frameLen := by
  simp only [sealLinkFrame, Crypto.sealFrame_congr h]

theorem openLinkFrame_congr {m m' : Module} (h : m.initialized = m'.initialized) (s : Session)
    (i : Fin maxLinks) (key frame plainOut : Ptr) (lenOut scanBan : Bool) :
    openLinkFrame m s i key frame plainOut lenOut scanBan =
      openLinkFrame m' s i key frame plainOut lenOut scanBan := by
  simp only [openLinkFrame, Crypto.openFrame_congr h]

/-- A module that is initialized, without its tables. -/
def readied : World :=
  { crypto := { Crypto.Module.zero with initialized := true }, initialized := true }

theorem moduleInit_crypto {w : World} (hinit : w.initialized = false)
    (hok : (Crypto.moduleInit true w.crypto).1 = .ok) :
    (w.next (.moduleInit true true)).crypto.initialized = true := by
  have hcrypto := Crypto.moduleInit_initialized hok
  show (w.moduleInit true true).2.crypto.initialized = true
  unfold World.moduleInit
  rw [hinit]
  generalize Crypto.moduleInit true w.crypto = r at hok hcrypto ⊢
  obtain ⟨st, crypto⟩ := r
  obtain rfl : st = .ok := hok
  exact hcrypto

theorem opened_readied {w : World} (hcrypto : w.crypto.initialized = readied.crypto.initialized)
    (i : Fin maxLinks) (key frame out : Ptr) :
    (((w.next .sessionInit).next (.alloc 0 none)).next
        (.openLinkFrame i key frame out true true)).session =
      (((readied.next .sessionInit).next (.alloc 0 none)).next
        (.openLinkFrame i key frame out true true)).session ∧
    (((w.next .sessionInit).next (.alloc 0 none)).next
        (.openLinkFrame i key frame out true true)).crypto = w.crypto := by
  simp only [World.next, World.openFrame, openLinkFrame_congr hcrypto, and_self]

theorem banningCalls_readied (key : List UInt8) :
    ((banningCalls key).foldl World.next {}).session =
        ((banningCalls key).tail.foldl World.next readied).session ∧
      ((banningCalls key).foldl World.next {}).crypto.initialized = readied.crypto.initialized := by
  have hok := Crypto.moduleInit_ok .zero
  have hcrypto := @moduleInit_crypto {} rfl hok
  generalize hframe : linkFrame key 1 [0x43, 0xA3, 0x11, 0x00] = frame
  rw [banningCalls, hframe, List.tail_cons]
  simp only [List.foldl_cons, List.foldl_nil]
  obtain ⟨hsession, hkept⟩ := opened_readied hcrypto _ (some key) (some frame)
    (some (List.replicate 4 0))
  rw [hkept]
  exact ⟨hsession, hcrypto⟩

theorem banned_states {w : World}
    (hw : w = (banningCalls (List.replicate 32 7)).foldl World.next {}) :
    (w.session.links 0).state = .banned ∧
      (((w.next (.onLink 0 .close)).next (.onLink 0 .activate)).session.links 0).state = .secure ∧
      (((w.next (.onLink 0 .close)).next (.onLink 0 .activate)).sealFrame 0
        (some (List.replicate 32 7)) 2 (some [1]) (some (List.replicate 54 0)) (some 54)).status = .ok ∧
      ((w.next (.free 0)).openFrame 0 (some (List.replicate 32 7))
        (some (linkFrame (List.replicate 32 7) 2 [1])) (some [0]) true true).status = .ok := by
  obtain ⟨hsession, hcrypto⟩ := banningCalls_readied (List.replicate 32 7)
  rw [← hw] at hsession hcrypto
  simp only [World.next, World.sealFrame, World.openFrame, sealLinkFrame_congr hcrypto,
    openLinkFrame_congr hcrypto, hsession]
  decide +kernel

theorem banned_until_lifted_run :
    ∃ w w', Calls (fun _ _ => True) World.next {} (banningCalls (List.replicate 32 7)) w ∧
      (w.session.links 0).state = .banned ∧
      Calls (fun w op => ¬ Lifts 0 w op) World.next w [.onLink 0 .activate, .onLink 0 (.tick 9 none)]
        w' ∧
      (w'.session.links 0).state = .banned := by
  obtain ⟨w, hw⟩ : ∃ w, w = (banningCalls (List.replicate 32 7)).foldl World.next {} := ⟨_, rfl⟩
  have hban := (banned_states hw).1
  have hrun : Calls (fun w op => ¬ Lifts 0 w op) World.next w
      [.onLink 0 .activate, .onLink 0 (.tick 9 none)]
      ((w.next (.onLink 0 .activate)).next (.onLink 0 (.tick 9 none))) :=
    .snoc (.snoc .nil fun h => h.elim) fun h => h.elim
  refine ⟨w, _, ?_, hban, hrun, (banned_until_lifted hban hrun).1⟩
  rw [hw]
  exact banningCalls_run _

/-- A banned link that is closed can be activated again, and one that is freed opens
frames without being allocated anew. -/
theorem ban_lifted_by_close :
    ∃ w w' w'', Calls (fun _ _ => True) World.next {} (banningCalls (List.replicate 32 7)) w ∧
      (w.session.links 0).state = .banned ∧
      Calls (SameAllocation 0) World.next w [.onLink 0 .close, .onLink 0 .activate] w' ∧
      (w'.session.links 0).state = .secure ∧
      (w'.sealFrame 0 (some (List.replicate 32 7)) 2 (some [1]) (some (List.replicate 54 0))
        (some 54)).status = .ok ∧
      Calls (SameAllocation 0) World.next w [.free 0] w'' ∧
      (w''.openFrame 0 (some (List.replicate 32 7)) (some (linkFrame (List.replicate 32 7) 2 [1]))
        (some [0]) true true).status = .ok := by
  obtain ⟨w, hw⟩ : ∃ w, w = (banningCalls (List.replicate 32 7)).foldl World.next {} := ⟨_, rfl⟩
  obtain ⟨hban, hsecure, hseal, hopen⟩ := banned_states hw
  refine ⟨w, _, _, ?_, hban, .snoc (.snoc .nil trivial) trivial, hsecure, hseal,
    .snoc .nil trivial, hopen⟩
  rw [hw]
  exact banningCalls_run _

end Netwerk
