import OpenWindows.Engines.Com

/-!
# Component handles

A run of the registry keeps the ids in its table equal to the handles that are
alive, all of them different and none of them 0, as long as each call meets a
condition on the state it is made in.  The condition is stated on the table and
the arguments only, and for a manifest on each of its lines.
-/

namespace Engines

open StepSystem

variable {ω : Type} {E : Callbacks ω} {c : Com ω}

/-! ## Slots -/

/-- The ids of the slots in use. -/
def Com.liveIds (c : Com ω) : List UInt32 := (c.instances.map (·.id)).filter (· ≠ 0)

variable {i : Nat} {id : UInt32} {inst : ComInstance}

theorem Com.find_eq_some (h : c.find id = some (i, inst)) :
    inst.id = id ∧ ∃ before after, c.instances = before ++ inst :: after ∧ before.length = i := by
  unfold Com.find at h
  split at h
  next j hj =>
    obtain ⟨inst', hinst, heq⟩ := Option.map_eq_some_iff.mp h
    cases heq
    obtain ⟨hlt, hid, -⟩ := List.findIdx?_eq_some_iff_getElem.mp hj
    obtain ⟨hlt', hget⟩ := List.getElem?_eq_some_iff.mp hinst
    rw [hget] at hid
    refine ⟨by simpa using hid, c.instances.take i, c.instances.drop (i + 1), ?_, ?_⟩
    · rw [← hget, List.getElem_cons_drop, List.take_append_drop]
    · rw [List.length_take]
      omega
  · cases h

theorem Com.setSlot_liveIds (h : c.find id = some (i, inst)) (inst' : ComInstance) :
    ∃ before after, c.liveIds = before ++ [id].filter (· ≠ 0) ++ after ∧
      (c.setSlot i inst').liveIds = before ++ [inst'.id].filter (· ≠ 0) ++ after := by
  obtain ⟨rfl, before, after, hsplit, rfl⟩ := Com.find_eq_some h
  refine ⟨(before.map (·.id)).filter (· ≠ 0), (after.map (·.id)).filter (· ≠ 0), ?_, ?_⟩
  · rw [Com.liveIds, hsplit, List.map_append, List.map_cons, List.filter_append,
      ← List.singleton_append, List.filter_append, List.append_assoc]
  · have hset : (c.setSlot before.length inst').instances = before ++ inst' :: after := by
      show c.instances.set before.length inst' = _
      rw [hsplit, List.set_append_right _ _ (Nat.le_refl _), Nat.sub_self, List.set_cons_zero]
    rw [Com.liveIds, hset, List.map_append, List.map_cons, List.filter_append,
      ← List.singleton_append, List.filter_append, List.append_assoc]

theorem Com.mem_liveIds (h : c.find id = some (i, inst)) (hid : id ≠ 0) : id ∈ c.liveIds := by
  obtain ⟨before, after, hlive, -⟩ := c.setSlot_liveIds h inst
  rw [hlive]
  simp [hid]

/-! ## The invariant -/

/-- The ids in the table are the handles that are alive, different from each
other and from 0. -/
structure Com.Distinct (c : Com ω) : Prop where
  perm : c.liveIds.Perm c.handles
  nodup : c.handles.Nodup
  ne_zero : 0 ∉ c.handles

theorem Com.Distinct.init (world : ω) : (Com.init world).Distinct where
  perm := by simp [Com.liveIds, Com.init, ComInstance.empty]
  nodup := List.nodup_nil
  ne_zero := List.not_mem_nil

theorem Com.newId_ne_zero (c : Com ω) : c.newId ≠ 0 := by
  unfold Com.newId
  split
  · decide
  · assumption

theorem Com.Distinct.insert (h : c.Distinct) {i : Nat} {inst inst' : ComInstance}
    (hfind : c.find 0 = some (i, inst)) (hne : inst'.id ≠ 0) (hnew : inst'.id ∉ c.handles)
    (nextId : UInt32) (world : ω) :
    Com.Distinct { c.setSlot i inst' with
      nextId := nextId, world := world, handles := c.handles ++ [inst'.id] } := by
  obtain ⟨before, after, hlive, hset⟩ := c.setSlot_liveIds hfind inst'
  refine ⟨?_, ?_, ?_⟩
  · show (c.setSlot i inst').liveIds.Perm (c.handles ++ [inst'.id])
    have hperm := h.perm
    rw [hlive] at hperm
    rw [hset]
    simp only [ne_eq, not_true_eq_false, decide_false, Bool.false_eq_true, not_false_eq_true,
      List.filter_cons_of_neg, List.filter_nil, List.append_nil, hne, decide_true,
      List.filter_cons_of_pos, List.append_assoc, List.singleton_append] at hperm ⊢
    exact List.perm_middle.trans ((hperm.cons inst'.id).trans (List.perm_append_singleton _ _).symm)
  · exact List.nodup_append.mpr ⟨h.nodup, List.nodup_singleton _, by
      intro a ha b hb hab
      rw [List.mem_singleton] at hb
      exact hnew (hb ▸ hab ▸ ha)⟩
  · intro hmem
    rcases List.mem_append.mp hmem with hmem | hmem
    · exact h.ne_zero hmem
    · exact hne (List.mem_singleton.mp hmem).symm

theorem Com.Distinct.write (h : c.Distinct) {inst inst' : ComInstance}
    (hfind : c.find id = some (i, inst)) (hid : inst'.id = id) (nextId : UInt32) (world : ω) :
    Com.Distinct { c.setSlot i inst' with nextId := nextId, world := world } := by
  obtain ⟨before, after, hlive, hset⟩ := c.setSlot_liveIds hfind inst'
  refine ⟨?_, h.nodup, h.ne_zero⟩
  show (c.setSlot i inst').liveIds.Perm c.handles
  rw [hset, hid, ← hlive]
  exact h.perm

theorem Com.Distinct.erase (h : c.Distinct) (hfind : c.find id = some (i, inst)) (hid : id ≠ 0) :
    Com.Distinct { c.setSlot i { inst with id := 0 } with
      handles := c.handles.filter (· ≠ id) } := by
  obtain ⟨before, after, hlive, hset⟩ := c.setSlot_liveIds hfind { inst with id := 0 }
  refine ⟨?_, h.nodup.filter _, fun hmem => h.ne_zero (List.mem_filter.mp hmem).1⟩
  show (c.setSlot i { inst with id := 0 }).liveIds.Perm (c.handles.filter (· ≠ id))
  have hnodup : c.liveIds.Nodup := h.perm.nodup_iff.mpr h.nodup
  have hperm := h.perm.filter (· ≠ id)
  -- no other slot has the id
  have hout : ∀ x, x ∈ before ∨ x ∈ after → x ≠ id := by
    rintro x hx rfl
    rw [hlive] at hnodup
    simp only [ne_eq, hid, not_false_eq_true, decide_true, List.filter_cons_of_pos, List.filter_nil,
      List.append_assoc, List.singleton_append] at hnodup
    have hmid := List.nodup_middle.mp hnodup
    exact (List.nodup_cons.mp hmid).1 (List.mem_append.mpr hx)
  have hself : ∀ l : List UInt32, (∀ x ∈ l, x ≠ id) → l.filter (· ≠ id) = l :=
    fun l hl => List.filter_eq_self.mpr fun x hx => by simpa using hl x hx
  rw [hlive, List.filter_append, List.filter_append, hself before fun x hx => hout x (.inl hx),
    hself after fun x hx => hout x (.inr hx)] at hperm
  rw [hset]
  simpa [hid] using hperm

/-! ## Runs -/

/-- The lines a run of the engine comes to, each with the registry it is
executed in. -/
def comVisits (E : Callbacks ω) : List (List UInt8) → Machine → Com ω →
    List (Com ω × List (List UInt8))
  | [], _, _ => []
  | line :: lines, m, c =>
    match comWords line with
    | [] => comVisits E lines m c
    | words =>
      match chargeWords words.length m with
      | (false, _) => []
      | (true, m) =>
        match comLine E c words with
        | (.ok, c') => (c, words) :: comVisits E lines m c'
        | _ => [(c, words)]

/-- Calls of the registry. -/
inductive ComOp where
  | factoryRegister (key : UInt32) (create owner : UInt64)
  | create (key : UInt32) (ccc : List UInt8)
  | destroy (id : UInt32)
  | resolve (id iid : UInt32)
  | invoke (id iid slot : UInt32) (args : Option (List (BitVec 64))) (argc : UInt32)
  | manifest (m : Machine) (bytes : List UInt8)

def Com.next (E : Callbacks ω) (c : Com ω) : ComOp → Com ω
  | .factoryRegister key create owner => (mengComFactoryRegister c key create owner).2
  | .create key ccc => (mengComCreate E c key ccc).2
  | .destroy id => (mengComDestroy c id).2
  | .resolve _ _ => c
  | .invoke id iid slot args argc => (mengComInvoke E c id iid slot args argc).2.2
  | .manifest m bytes => (engineComRun E m bytes c).2.2

/-- The id 0 is looked up only while every slot is in use. -/
def Com.Lookup (c : Com ω) (id : UInt32) : Prop := id = 0 → ∀ inst ∈ c.instances, inst.id ≠ 0

/-- When there is a factory for the key and a free slot, no slot in use has the
id the next instance gets. -/
def Com.Fresh (c : Com ω) (key : UInt32) : Prop :=
  (∃ f, mengComFactoryLookup c key = .ok f) → (∃ inst ∈ c.instances, inst.id = 0) →
    ∀ inst ∈ c.instances, inst.id ≠ c.newId

/-- The condition on a line of a manifest. -/
def Com.LineGuard (E : Callbacks ω) (c : Com ω) : List (List UInt8) → Prop
  | w :: word :: _ =>
    (w = createWord → c.Fresh (pack4cc (createChars E c word))) ∧
      (w = callWord → ∀ inst, c.currentInstance = some inst → inst.id ≠ 0)
  | _ => True

/-- The condition on a call. -/
def Com.Guard (E : Callbacks ω) (c : Com ω) : ComOp → Prop
  | .factoryRegister _ _ _ => True
  | .create key _ => c.Fresh key
  | .destroy id => c.Lookup id
  | .resolve id _ => c.Lookup id
  | .invoke id _ _ _ _ => c.Lookup id
  | .manifest m bytes => ∀ v ∈ comVisits E (comLines bytes.length bytes) m c, v.1.LineGuard E v.2

/-- A `call` line that succeeds calls an instance whose id is a handle. -/
def Com.LineHonest (E : Callbacks ω) (c : Com ω) (words : List (List UInt8)) : Prop :=
  words.head? = some callWord → (comLine E c words).1 = .ok →
    ∃ inst, c.currentInstance = some inst ∧ inst.id ∈ c.handles

/-- A call that succeeds is given a handle: an id that a successful create
returned and that was not destroyed since.  While a manifest runs, the handles
stay distinct and each of its lines is honest. -/
def Com.Honest (E : Callbacks ω) (c : Com ω) : ComOp → Prop
  | .factoryRegister _ _ _ => True
  | .create _ _ => True
  | .destroy id => (mengComDestroy c id).1 = .ok → id ∈ c.handles
  | .resolve id iid => (∃ i, mengComResolve c id iid = .ok i) → id ∈ c.handles
  | .invoke id iid slot args argc =>
    (mengComInvoke E c id iid slot args argc).1 = .ok → id ∈ c.handles
  | .manifest m bytes =>
    ∀ v ∈ comVisits E (comLines bytes.length bytes) m c, v.1.Distinct ∧ v.1.LineHonest E v.2

/-! ## One call -/

theorem Com.Lookup.ne_zero (hg : c.Lookup id) (h : c.find id = some (i, inst)) : id ≠ 0 := by
  intro h0
  obtain ⟨hid, before, after, hsplit, -⟩ := Com.find_eq_some h
  exact hg h0 inst (by simp [hsplit]) (hid.trans h0)

theorem Com.Distinct.mem_handles (h : c.Distinct)
    (hg : c.Lookup id) (hfind : c.find id = some (i, inst)) : id ∈ c.handles :=
  h.perm.mem_iff.mp (c.mem_liveIds hfind (hg.ne_zero hfind))

theorem Com.Distinct.newId_not_mem (h : c.Distinct)
    (hg : ∀ inst ∈ c.instances, inst.id ≠ c.newId) : c.newId ∉ c.handles := by
  intro hmem
  obtain ⟨hmap, -⟩ := List.mem_filter.mp (h.perm.mem_iff.mpr hmem)
  obtain ⟨inst, hinst, hid⟩ := List.mem_map.mp hmap
  exact hg inst hinst hid

theorem Com.Distinct.create (h : c.Distinct) {key : UInt32} (hg : c.Fresh key) (ccc : List UInt8) :
    (mengComCreate E c key ccc).2.Distinct := by
  unfold mengComCreate
  split
  · exact h
  next f hf =>
    split
    · exact h
    next i inst hfind =>
      dsimp only
      split
      · exact h.write hfind rfl _ _
      · obtain ⟨hfree, before, after, hsplit, -⟩ := Com.find_eq_some hfind
        have hnew := hg ⟨f, hf⟩ ⟨inst, by simp [hsplit], hfree⟩
        exact h.insert hfind c.newId_ne_zero (h.newId_not_mem hnew) _ _

theorem Com.Distinct.destroy (h : c.Distinct) (hg : c.Lookup id) :
    (mengComDestroy c id).2.Distinct := by
  unfold mengComDestroy
  split
  next i inst hfind => exact h.erase hfind (hg.ne_zero hfind)
  · exact h

theorem mengComDestroy_ok (hok : (mengComDestroy c id).1 = .ok) :
    ∃ i inst, c.find id = some (i, inst) := by
  unfold mengComDestroy at hok
  split at hok
  next i inst hfind => exact ⟨i, inst, hfind⟩
  · cases hok

theorem mengComResolve_ok {id iid : UInt32} (hok : mengComResolve c id iid = .ok i) :
    ∃ inst, c.find id = some (i, inst) := by
  unfold mengComResolve at hok
  split at hok
  next j inst hfind =>
    cases hok
    exact ⟨inst, hfind⟩
  · cases hok

theorem Com.Distinct.invoke (h : c.Distinct) (id iid slot : UInt32)
    (args : Option (List (BitVec 64))) (argc : UInt32) :
    (mengComInvoke E c id iid slot args argc).2.2.Distinct := by
  unfold mengComInvoke
  split
  · exact h
  · split
    · exact h
    next i inst hfind =>
      split
      · exact h
      next f _ =>
        split
        · exact h
        · dsimp only
          split
          · exact h
          · have hid : ∀ b : ComBody, ({ inst with body := b } : ComInstance).id = id :=
              fun _ => (Com.find_eq_some hfind).1
            exact h.write hfind (hid _) c.nextId _

theorem mengComInvoke_ok {id iid slot : UInt32} {args : Option (List (BitVec 64))} {argc : UInt32}
    (hok : (mengComInvoke E c id iid slot args argc).1 = .ok) :
    ∃ i inst, c.find id = some (i, inst) := by
  unfold mengComInvoke at hok
  split at hok
  · cases hok
  · split at hok
    · cases hok
    next i inst hfind => exact ⟨i, inst, hfind⟩

theorem Com.Distinct.register (h : c.Distinct) (key : UInt32) (create owner : UInt64) :
    (mengComFactoryRegister c key create owner).2.Distinct := by
  unfold mengComFactoryRegister
  split
  · exact h
  · split
    · exact h
    · split
      · exact h
      · exact ⟨h.perm, h.nodup, h.ne_zero⟩

/-! ## Manifests -/

theorem Com.Distinct.createLine (h : c.Distinct) {word : List UInt8}
    (hg : c.Fresh (pack4cc (createChars E c word))) : (comCreateLine E c word).2.Distinct := by
  have hcreate := h.create (E := E) hg (createChars E c word)
  unfold comCreateLine
  split
  next heq => rwa [heq] at hcreate
  next id c' heq =>
    rw [heq] at hcreate
    split
    · exact ⟨hcreate.perm, hcreate.nodup, hcreate.ne_zero⟩
    · exact hcreate

theorem Com.Distinct.resolvLine (h : c.Distinct) (word : List UInt8) :
    (comResolvLine c word).2.Distinct := by
  unfold comResolvLine
  dsimp only
  split
  · exact h
  · split
    · exact h
    · exact ⟨h.perm, h.nodup, h.ne_zero⟩

theorem Com.Distinct.callLine (h : c.Distinct) (word : List UInt8) (rest : List (List UInt8)) :
    (comCallLine E c word rest).2.Distinct := by
  unfold comCallLine
  split
  · exact h
  · split
    · exact h
    · split
      · exact h
      · exact h.invoke _ _ _ _ _

variable {words : List (List UInt8)}

theorem Com.Distinct.line (h : c.Distinct) (hg : c.LineGuard E words) :
    (comLine E c words).2.Distinct := by
  match words, hg with
  | [], _ => exact h
  | [_], _ => exact h
  | w :: word :: rest, hg =>
    simp only [comLine]
    split
    next hw => exact h.createLine (hg.1 hw)
    · split
      · exact h.resolvLine word
      · split
        · exact h.callLine word rest
        · exact h

theorem parseArgs_ne_ok (ws : List (List UInt8)) : parseArgs ws ≠ .error .ok := by
  induction ws with
  | nil => nofun
  | cons w ws ih =>
    intro h
    simp only [parseArgs] at h
    split at h
    · cases h
    · split at h
      next st hst =>
        cases h
        exact ih hst
      · cases h

theorem comCallLine_ok {word : List UInt8} {rest : List (List UInt8)}
    (hok : (comCallLine E c word rest).1 = .ok) :
    ∃ inst i inst', c.currentInstance = some inst ∧ c.find inst.id = some (i, inst') := by
  unfold comCallLine at hok
  split at hok
  · cases hok
  next inst hinst =>
    split at hok
    · cases hok
    · split at hok
      next st harg =>
        rw [show st = .ok from hok] at harg
        exact absurd harg (parseArgs_ne_ok _)
      · obtain ⟨i, inst', hfind⟩ := mengComInvoke_ok hok
        exact ⟨inst, i, inst', hinst, hfind⟩

theorem Com.Distinct.lineHonest (h : c.Distinct)
    (hg : c.LineGuard E words) : c.LineHonest E words := by
  intro hcall hok
  match words, hg, hcall, hok with
  | [_], _, _, hok => cases hok
  | w :: word :: rest, hg, hcall, hok =>
    obtain rfl : w = callWord := by simpa using hcall
    have hline : comLine E c (callWord :: word :: rest) = comCallLine E c word rest := by
      simp only [comLine, if_neg (show callWord ≠ createWord by decide),
        if_neg (show callWord ≠ resolvWord by decide), if_true]
    rw [hline] at hok
    obtain ⟨inst, i, inst', hinst, hfind⟩ := comCallLine_ok hok
    have hne := hg.2 rfl inst hinst
    exact ⟨inst, hinst, h.mem_handles (fun h0 => absurd h0 hne) hfind⟩

theorem Com.Distinct.run (h : c.Distinct) (lines : List (List UInt8)) (m : Machine)
    (hg : ∀ v ∈ comVisits E lines m c, v.1.LineGuard E v.2) :
    (comRun E lines m c).2.2.Distinct ∧
      ∀ v ∈ comVisits E lines m c, v.1.Distinct ∧ v.1.LineHonest E v.2 := by
  induction lines generalizing m c with
  | nil => exact ⟨h, nofun⟩
  | cons line lines ih =>
    cases hwords : comWords line with
    | nil =>
      simp only [comRun, comVisits, hwords] at hg ⊢
      exact ih h m hg
    | cons w ws =>
      rcases hcharge : chargeWords (w :: ws).length m with ⟨b, m'⟩
      cases b with
      | false =>
        simp only [comRun, comVisits, hwords, hcharge]
        exact ⟨h, nofun⟩
      | true =>
        rcases hline : comLine E c (w :: ws) with ⟨st, c'⟩
        have hfirst : (c, w :: ws) ∈ comVisits E (line :: lines) m c := by
          simp only [comVisits, hwords, hcharge]
          split <;> exact List.mem_cons_self
        have hguard : c.LineGuard E (w :: ws) := hg (c, w :: ws) hfirst
        have hd : c'.Distinct := by
          have hd := h.line hguard
          rwa [hline] at hd
        have hhonest := h.lineHonest hguard
        by_cases hst : st = .ok
        · subst hst
          simp only [comRun, comVisits, hwords, hcharge, hline] at hg ⊢
          obtain ⟨hrun, hvisits⟩ := ih hd m' fun v hv => hg v (List.mem_cons_of_mem _ hv)
          exact ⟨hrun, List.forall_mem_cons.mpr ⟨⟨h, hhonest⟩, hvisits⟩⟩
        · -- any other status ends the run
          simp only [comRun, comVisits, hwords, hcharge, hline]
          cases st with
          | ok => exact absurd rfl hst
          | _ => exact ⟨hd, List.forall_mem_singleton.mpr ⟨h, hhonest⟩⟩

/-! ## The result -/

theorem Com.Distinct.next (h : c.Distinct) {op : ComOp} (hg : c.Guard E op) :
    (c.next E op).Distinct := by
  cases op with
  | factoryRegister key create owner => exact h.register key create owner
  | create key ccc => exact h.create hg ccc
  | destroy id => exact h.destroy hg
  | resolve id iid => exact h
  | invoke id iid slot args argc => exact h.invoke id iid slot args argc
  | manifest m bytes => exact (h.run _ m hg).1

theorem Com.Distinct.honest (h : c.Distinct) {op : ComOp} (hg : c.Guard E op) :
    c.Honest E op := by
  cases op with
  | factoryRegister key create owner => trivial
  | create key ccc => trivial
  | destroy id =>
    intro hok
    obtain ⟨i, inst, hfind⟩ := mengComDestroy_ok hok
    exact h.mem_handles hg hfind
  | resolve id iid =>
    rintro ⟨i, hok⟩
    obtain ⟨inst, hfind⟩ := mengComResolve_ok hok
    exact h.mem_handles hg hfind
  | invoke id iid slot args argc =>
    intro hok
    obtain ⟨i, inst, hfind⟩ := mengComInvoke_ok hok
    exact h.mem_handles hg hfind
  | manifest m bytes => exact (h.run _ m hg).2

/-- In every state that a run of permitted calls reaches, the ids of the live
instances are the handles, different from each other and from 0, and every
further permitted call that succeeds is given one of them. -/
theorem comHandles_sound (E : Callbacks ω) (world : ω) (ops : List ComOp) (c : Com ω)
    (h : Calls (Com.Guard E) (Com.next E) (.init world) ops c) :
    c.Distinct ∧ ∀ op, c.Guard E op → c.Honest E op := by
  have hd : c.Distinct := h.invariant (fun _ _ hc hg => hc.next hg) (.init world)
  exact ⟨hd, fun op hg => hd.honest hg⟩

def echoHost : Callbacks Unit where
  create _ _ b _ _ := (.ok, { b with ifaceCount := 1, ifaces := [⟨7, [1]⟩] }, ())
  method _ inst _ _ _ := (.ok, 0, inst.body, ())
  residue _ := []

theorem comHandles_sound_create :
    ∃ c, Calls (Com.Guard echoHost) (Com.next echoHost) (.init ())
        [.factoryRegister 1 1 0, .create 1 []] c ∧ c.handles = [1] ∧ c.Distinct := by
  have h : Calls (Com.Guard echoHost) (Com.next echoHost) (.init ())
      ([] ++ [.factoryRegister 1 1 0] ++ [.create 1 []]) _ :=
    .snoc (.snoc .nil trivial) fun _ _ => by decide
  exact ⟨_, h, by decide, (comHandles_sound echoHost () _ _ h).1⟩

/-- The id 0 reaches the instance that was destroyed. -/
theorem mengComInvoke_destroyed :
    ¬ (([.factoryRegister 1 1 0, .create 1 [], .destroy 1] : List ComOp).foldl
        (Com.next echoHost) (.init ())).Honest echoHost (.invoke 0 7 0 (some []) 0) := by
  intro h
  exact absurd (h (by decide)) (by decide)

end Engines
