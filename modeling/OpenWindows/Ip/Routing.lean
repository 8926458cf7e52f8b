import OpenWindows.Ip.Stack
import OpenWindows.Lib.Slots

/-!
# Routing

The routes that `ip_add_route` has configured are a map from networks, with their
masks, to gateways.  `ip_route_lookup` takes the longest of the routes for the
destination, and only where there is none the connected subnet or the default
gateway.  A contiguous mask is determined by its length, so the longest route is
determined by the map, and the order of the calls does not matter.
-/

namespace Ip

open Slots Words

/-! ## Masks -/

/-- The mask of the first `n` bits, as on the wire. -/
def prefixMask (n : Nat) : UInt32 := getAddr (put32 (UInt32.ofNat (2 ^ 32 - 2 ^ (32 - n))))

/-- A mask of leading ones. -/
def Contiguous (mask : UInt32) : Prop := ∃ n ≤ 32, mask = prefixMask n

instance (mask : UInt32) : Decidable (Contiguous mask) :=
  inferInstanceAs (Decidable (∃ n ≤ 32, mask = prefixMask n))

theorem prefixLen_prefixMask : ∀ n ≤ 32, prefixLen (prefixMask n) = n := by
  decide

theorem Contiguous.eq {mask mask' : UInt32} (h : Contiguous mask) (h' : Contiguous mask')
    (hlen : prefixLen mask = prefixLen mask') : mask = mask' := by
  obtain ⟨n, hn, rfl⟩ := h
  obtain ⟨n', hn', rfl⟩ := h'
  rw [prefixLen_prefixMask n hn, prefixLen_prefixMask n' hn'] at hlen
  rw [hlen]

/-! ## The best route -/

def RouteEntry.For (e : RouteEntry) (dst : UInt32) : Prop := e.used = true ∧ e.covers dst

def Best (dst : UInt32) (seen : RouteEntry → Prop) : Option (RouteEntry × Nat) → Prop
  | none => ∀ e, seen e → ¬ e.For dst
  | some (b, len) =>
    seen b ∧ b.For dst ∧ len = prefixLen b.mask ∧
      ∀ e, seen e → e.For dst → prefixLen e.mask ≤ len

variable {dst : UInt32} {seen : RouteEntry → Prop} {best : Option (RouteEntry × Nat)}
  {e : RouteEntry}

/-- An entry that is not for the destination changes nothing. -/
theorem Best.skip (h : Best dst seen best) (he : ¬ e.For dst) :
    Best dst (fun x => seen x ∨ x = e) best := by
  cases best with
  | none =>
    rintro x (hx | rfl)
    · exact h x hx
    · exact he
  | some b =>
    obtain ⟨hseen, hfor, hlen, hmax⟩ := h
    refine ⟨.inl hseen, hfor, hlen, ?_⟩
    rintro x (hx | rfl) hxfor
    · exact hmax x hx hxfor
    · exact absurd hxfor he

theorem Best.turn (h : Best dst seen best) (e : RouteEntry) :
    Best dst (fun x => seen x ∨ x = e) (bestRoute dst best e) := by
  unfold bestRoute
  split
  next hused => exact h.skip fun hfor => by simp [hfor.1] at hused
  next hused =>
    split
    next hcovers => exact h.skip fun hfor => hcovers hfor.2
    next hcovers =>
      have hfor : e.For dst := ⟨by simpa using hused, not_not.mp hcovers⟩
      cases best with
      | none =>
        refine ⟨.inr rfl, hfor, rfl, ?_⟩
        rintro x (hx | rfl) hxfor
        · exact absurd hxfor (h x hx)
        · exact Nat.le_refl _
      | some b =>
        obtain ⟨hseen, hbfor, hlen, hmax⟩ := h
        dsimp only
        split
        next hlt =>
          refine ⟨.inr rfl, hfor, rfl, ?_⟩
          rintro x (hx | rfl) hxfor
          · exact Nat.le_of_lt (Nat.lt_of_le_of_lt (hmax x hx hxfor) hlt)
          · exact Nat.le_refl _
        next hge =>
          refine ⟨.inl hseen, hbfor, hlen, ?_⟩
          rintro x (hx | rfl) hxfor
          · exact hmax x hx hxfor
          · exact Nat.le_of_not_lt hge

theorem Best.loop (h : Best dst seen best) (routes : Nat → RouteEntry) (slots : List Nat) :
    Best dst (fun x => seen x ∨ ∃ i ∈ slots, x = routes i)
      (slots.foldl (fun best i => bestRoute dst best (routes i)) best) := by
  induction slots generalizing seen best with
  | nil => simpa using h
  | cons i slots ih =>
    have hnext := ih (h.turn (routes i))
    simp only [or_assoc] at hnext
    simpa using hnext

theorem findRoute_spec (st : Stack) (dst : UInt32) :
    match findRoute st dst with
    | none => ∀ i < routeMax, ¬ (st.routes i).For dst
    | some e => (∃ i < routeMax, e = st.routes i) ∧ e.For dst ∧
        ∀ i < routeMax, (st.routes i).For dst → prefixLen (st.routes i).mask ≤ prefixLen e.mask := by
  have hstart : Best dst (fun _ => False) none := fun _ h => h.elim
  have hloop := hstart.loop st.routes (List.range routeMax)
  simp only [false_or, List.mem_range] at hloop
  unfold findRoute
  generalize (List.range routeMax).foldl (fun best i => bestRoute dst best (st.routes i)) none =
    best at hloop
  cases best with
  | none => exact fun i hi => hloop _ ⟨i, hi, rfl⟩
  | some b =>
    obtain ⟨hseen, hfor, hlen, hmax⟩ := hloop
    exact ⟨hseen, hfor, fun i hi h => hlen ▸ hmax _ ⟨i, hi, rfl⟩ h⟩

/-! ## The configured routes -/

/-- A network: an address with its mask. -/
abbrev Network := UInt32 × UInt32

def RouteEntry.network (e : RouteEntry) : Network := (e.dest, e.mask)

/-- A call of `ip_add_route`. -/
structure RouteCall where
  dest : UInt32
  mask : UInt32
  gateway : UInt32
  deriving DecidableEq

def RouteCall.network (c : RouteCall) : Network := (c.dest &&& c.mask, c.mask)

/-- The stack, the gateway of every configured network, and the number of calls that
were refused because the table was full. -/
structure RouteUse where
  st : Stack
  fib : Network → Option UInt32
  refused : Nat

/-- One call: answered OK, it configures the gateway of its network. -/
def RouteUse.next (u : RouteUse) (c : RouteCall) : RouteUse :=
  let r := addRoute u.st c.dest c.mask c.gateway
  if r.1 = .ok then ⟨r.2, Function.update u.fib c.network (some c.gateway), u.refused⟩
  else ⟨r.2, u.fib, u.refused + 1⟩

/-- A run of calls after `ip_init`. -/
def routeRun (cfg : Config) (calls : List RouteCall) : RouteUse :=
  calls.foldl RouteUse.next ⟨.init cfg, fun _ => none, 0⟩

variable {calls : List RouteCall} {cfg : Config}

theorem routeRun_of_next {P : RouteUse → Prop} (hstart : P ⟨.init cfg, fun _ => none, 0⟩)
    (hnext : ∀ c ∈ calls, ∀ u, P u → P (u.next c)) : P (routeRun cfg calls) := by
  unfold routeRun
  generalize (⟨.init cfg, fun _ => none, 0⟩ : RouteUse) = u at hstart ⊢
  induction calls generalizing u with
  | nil => exact hstart
  | cons c calls ih =>
    exact ih (fun c hc => hnext c (List.mem_cons_of_mem _ hc)) _
      (hnext c (List.mem_cons_self ..) u hstart)

/-- The number of routes in the table. -/
def Stack.routeCount (st : Stack) : Nat := (List.range routeMax).countP fun i => (st.routes i).used

/-- The routes in use are the entries of the forwarding table. -/
structure RouteUse.Holds (u : RouteUse) : Prop where
  masked : ∀ i < routeMax, (u.st.routes i).used = true →
    (u.st.routes i).dest &&& (u.st.routes i).mask = (u.st.routes i).dest
  unique : ∀ i < routeMax, ∀ j < routeMax, (u.st.routes i).used = true →
    (u.st.routes j).used = true → (u.st.routes i).network = (u.st.routes j).network → i = j
  held : ∀ i < routeMax, (u.st.routes i).used = true →
    u.fib (u.st.routes i).network = some (u.st.routes i).gateway
  found : ∀ net gateway, u.fib net = some gateway →
    ∃ i < routeMax, (u.st.routes i).used = true ∧ (u.st.routes i).network = net

/-- What `addRoute` does. -/
inductive Configures (st : Stack) (c : RouteCall) : Status × Stack → Prop
  | replace {i : Nat} (hi : i < routeMax) (hused : (st.routes i).used = true)
      (hnet : (st.routes i).network = c.network) :
      Configures st c (.ok, st.setRoute i { st.routes i with gateway := c.gateway })
  | insert {i : Nat} (hi : i < routeMax) (hfree : (st.routes i).used = false)
      (hnew : ∀ j < routeMax, (st.routes j).used = true → (st.routes j).network ≠ c.network) :
      Configures st c (.ok, st.setRoute i ⟨c.dest &&& c.mask, c.mask, c.gateway, 0, true⟩)
  | full (hfull : ∀ j < routeMax, (st.routes j).used = true) : Configures st c (.full, st)

theorem RouteEntry.is_iff (e : RouteEntry) (c : RouteCall) :
    e.is c.dest c.mask = true ↔ e.used = true ∧ e.network = c.network := by
  simp [RouteEntry.is, RouteEntry.network, RouteCall.network, and_assoc]

theorem addRoute_configures (st : Stack) (c : RouteCall) :
    Configures st c (addRoute st c.dest c.mask c.gateway) := by
  unfold addRoute
  split
  next i hfind =>
    obtain ⟨hi, his⟩ := find?_range_spec hfind
    obtain ⟨hused, hnet⟩ := ((st.routes i).is_iff c).mp his
    exact .replace hi hused hnet
  next hnone =>
    split
    next i hfind =>
      obtain ⟨hi, hfree⟩ := find?_range_spec hfind
      refine .insert hi (by simpa using hfree) fun j hj hused hnet => ?_
      have hnot := find?_range_none hnone hj
      rw [((st.routes j).is_iff c).mpr ⟨hused, hnet⟩] at hnot
      cases hnot
    next hfull =>
      refine .full fun j hj => ?_
      simpa using find?_range_none hfull hj

variable {u : RouteUse} {c : RouteCall}

@[simp] theorem setRoute_routes_self (st : Stack) (i : Nat) (e : RouteEntry) :
    (st.setRoute i e).routes i = e := by
  simp [Stack.setRoute]

theorem setRoute_routes_of_ne {i j : Nat} (h : j ≠ i) (st : Stack) (e : RouteEntry) :
    (st.setRoute i e).routes j = st.routes j := by
  simp [Stack.setRoute, h]

theorem RouteUse.Holds.set (h : u.Holds) {i : Nat} (hi : i < routeMax) {e : RouteEntry}
    (hused : e.used = true) (hnet : e.network = c.network) (hgateway : e.gateway = c.gateway)
    (hother : ∀ j < routeMax, j ≠ i → (u.st.routes j).used = true →
      (u.st.routes j).network ≠ c.network)
    (hgone : (u.st.routes i).used = true → (u.st.routes i).network = c.network) :
    RouteUse.Holds ⟨u.st.setRoute i e, Function.update u.fib c.network (some c.gateway),
      u.refused⟩ := by
  have hmasked : e.dest &&& e.mask = e.dest := by
    simp only [RouteEntry.network, RouteCall.network, Prod.mk.injEq] at hnet
    rw [hnet.1, hnet.2, UInt32.and_assoc, UInt32.and_self]
  refine ⟨fun j hj hjused => ?_, fun j hj k hk hjused hkused hjk => ?_, fun j hj hjused => ?_,
    fun net gateway hfib => ?_⟩
  · by_cases hji : j = i
    · subst hji
      simpa using hmasked
    · rw [setRoute_routes_of_ne hji] at hjused ⊢
      exact h.masked j hj hjused
  · by_cases hji : j = i <;> by_cases hki : k = i
    · rw [hji, hki]
    · subst hji
      rw [setRoute_routes_self, setRoute_routes_of_ne hki] at hjk
      rw [setRoute_routes_of_ne hki] at hkused
      exact absurd (hjk.symm.trans hnet) (hother k hk hki hkused)
    · subst hki
      rw [setRoute_routes_self, setRoute_routes_of_ne hji] at hjk
      rw [setRoute_routes_of_ne hji] at hjused
      exact absurd (hjk.trans hnet) (hother j hj hji hjused)
    · rw [setRoute_routes_of_ne hji] at hjused hjk
      rw [setRoute_routes_of_ne hki] at hkused hjk
      exact h.unique j hj k hk hjused hkused hjk
  · by_cases hji : j = i
    · subst hji
      simp [hnet, hgateway]
    · rw [setRoute_routes_of_ne hji] at hjused ⊢
      exact (Function.update_of_ne (hother j hj hji hjused) _ _).trans (h.held j hj hjused)
  · by_cases hsame : net = c.network
    · exact ⟨i, hi, by simpa using hused, by simp [hnet, hsame]⟩
    · obtain ⟨j, hj, hjused, hjnet⟩ :=
        h.found net gateway ((Function.update_of_ne hsame _ _).symm.trans hfib)
      have hji : j ≠ i := by
        rintro rfl
        exact hsame (hjnet.symm.trans (hgone hjused))
      exact ⟨j, hj, by rwa [setRoute_routes_of_ne hji], by rwa [setRoute_routes_of_ne hji]⟩

theorem RouteUse.Holds.next (h : u.Holds) (c : RouteCall) : (u.next c).Holds := by
  have hconf := addRoute_configures u.st c
  unfold RouteUse.next
  generalize addRoute u.st c.dest c.mask c.gateway = r at hconf
  cases hconf with
  | @replace i hi hused hnet =>
    refine h.set hi hused hnet rfl (fun j hj hji hjused hjnet => ?_) fun _ => hnet
    exact hji (h.unique j hj i hi hjused hused (hjnet.trans hnet.symm))
  | @insert i hi hfree hnew =>
    refine h.set hi rfl rfl rfl (fun j hj _ hjused => hnew j hj hjused) fun hused => ?_
    rw [hfree] at hused
    cases hused
  | full hfull => exact ⟨h.masked, h.unique, h.held, h.found⟩

theorem holds_routeRun (cfg : Config) (calls : List RouteCall) : (routeRun cfg calls).Holds :=
  routeRun_of_next ⟨nofun, nofun, nofun, nofun⟩ fun c _ _ h => h.next c

/-! ## The answer -/

/-- The longest of the configured routes for a destination. -/
def Longest (fib : Network → Option UInt32) (dst : UInt32) (net : Network) (gateway : UInt32) :
    Prop :=
  fib net = some gateway ∧ dst &&& net.2 = net.1 ∧
    ∀ net' gateway', fib net' = some gateway' → dst &&& net'.2 = net'.1 →
      prefixLen net'.2 ≤ prefixLen net.2

theorem RouteUse.Holds.for_iff (h : u.Holds) {i : Nat} (hi : i < routeMax)
    (hused : (u.st.routes i).used = true) (dst : UInt32) :
    (u.st.routes i).For dst ↔ dst &&& (u.st.routes i).network.2 = (u.st.routes i).network.1 := by
  rw [RouteEntry.For, RouteEntry.covers, h.masked i hi hused]
  exact ⟨fun hfor => hfor.2, fun heq => ⟨hused, heq⟩⟩

theorem RouteUse.Holds.findRoute_eq (h : u.Holds)
    (hmask : ∀ net gateway, u.fib net = some gateway → Contiguous net.2) {net : Network}
    {gateway : UInt32} (hlong : Longest u.fib dst net gateway) :
    ∃ e, findRoute u.st dst = some e ∧ e.gateway = gateway := by
  obtain ⟨hfib, hin, hmax⟩ := hlong
  obtain ⟨i, hi, hused, rfl⟩ := h.found net gateway hfib
  have hfor := (h.for_iff hi hused dst).mpr hin
  have hspec := findRoute_spec u.st dst
  cases hfind : findRoute u.st dst with
  | none =>
    rw [hfind] at hspec
    exact absurd hfor (hspec i hi)
  | some e =>
    rw [hfind] at hspec
    obtain ⟨⟨j, hj, rfl⟩, hjfor, hjmax⟩ := hspec
    have hjin := (h.for_iff hj hjfor.1 dst).mp hjfor
    have hjheld := h.held j hj hjfor.1
    have hlen : prefixLen (u.st.routes j).mask = prefixLen (u.st.routes i).mask :=
      Nat.le_antisymm (hmax _ _ hjheld hjin) (hjmax i hi hfor)
    have hsame : (u.st.routes j).mask = (u.st.routes i).mask :=
      (hmask _ _ hjheld).eq (hmask _ _ hfib) hlen
    have hnet : (u.st.routes j).network = (u.st.routes i).network := by
      refine Prod.ext ?_ hsame
      rw [← hjin, ← hin]
      exact congrArg (dst &&& ·) hsame
    rw [hnet, hfib] at hjheld
    exact ⟨_, rfl, (Option.some.inj hjheld).symm⟩

theorem RouteUse.Holds.findRoute_none (h : u.Holds) (hfind : findRoute u.st dst = none)
    {net : Network} {gateway : UInt32} (hfib : u.fib net = some gateway) :
    dst &&& net.2 ≠ net.1 := by
  intro hin
  obtain ⟨i, hi, hused, rfl⟩ := h.found net gateway hfib
  have hspec := findRoute_spec u.st dst
  rw [hfind] at hspec
  exact hspec i hi ((h.for_iff hi hused dst).mpr hin)

theorem RouteUse.Holds.longest (h : u.Holds) {e : RouteEntry}
    (hfind : findRoute u.st dst = some e) : Longest u.fib dst e.network e.gateway := by
  have hspec := findRoute_spec u.st dst
  rw [hfind] at hspec
  obtain ⟨⟨i, hi, rfl⟩, hfor, hmax⟩ := hspec
  refine ⟨h.held i hi hfor.1, (h.for_iff hi hfor.1 dst).mp hfor, fun net gateway hfib hin => ?_⟩
  obtain ⟨j, hj, hused, rfl⟩ := h.found net gateway hfib
  exact hmax j hj ((h.for_iff hj hused dst).mpr hin)

/-- The next hop where no route is for the destination. -/
def fallback (cfg : Config) (dst : UInt32) : Except Status UInt32 :=
  if cfg.netmask ≠ 0 ∧ dst &&& cfg.netmask = cfg.ip &&& cfg.netmask then .ok dst
  else if cfg.gateway ≠ 0 then .ok cfg.gateway
  else .error .noRoute

/-- The addresses are those of `cfg`. -/
structure Stack.Configured (st : Stack) (cfg : Config) : Prop where
  initialized : st.initialized = true
  localIp : st.localIp = cfg.ip
  netmask : st.netmask = cfg.netmask
  gateway : st.gateway = cfg.gateway

theorem RouteUse.next_configured (h : u.st.Configured cfg) (c : RouteCall) :
    (u.next c).st.Configured cfg := by
  have hconf := addRoute_configures u.st c
  unfold RouteUse.next
  generalize addRoute u.st c.dest c.mask c.gateway = r at hconf
  cases hconf with
  | replace | insert | full => exact ⟨h.initialized, h.localIp, h.netmask, h.gateway⟩

theorem routeRun_configured (cfg : Config) (calls : List RouteCall) :
    (routeRun cfg calls).st.Configured cfg :=
  routeRun_of_next (P := fun u => u.st.Configured cfg) ⟨rfl, rfl, rfl, rfl⟩
    fun c _ u h => u.next_configured h c

theorem Stack.Configured.route_eq {st : Stack} (h : st.Configured cfg) (dst : UInt32) :
    route st dst =
      match findRoute st dst with
      | some e => .ok (if e.gateway ≠ 0 then e.gateway else dst)
      | none => fallback cfg dst := by
  rw [route, h.initialized, routeLookup, h.netmask, h.localIp, h.gateway]
  rfl

theorem routeRun_contiguous (cfg : Config) (hmask : ∀ c ∈ calls, Contiguous c.mask) :
    ∀ net gateway, (routeRun cfg calls).fib net = some gateway → Contiguous net.2 := by
  refine routeRun_of_next
    (P := fun u => ∀ net gateway, u.fib net = some gateway → Contiguous net.2)
    (fun _ _ h => by cases h) fun c hc u h net gateway hfib => ?_
  unfold RouteUse.next at hfib
  dsimp only at hfib
  split at hfib
  · by_cases hsame : net = c.network
    · rw [hsame]
      exact hmask c hc
    · exact h net gateway ((Function.update_of_ne hsame _ _).symm.trans hfib)
  · exact h net gateway hfib

/-! ## The order of the calls -/

/-- A call that is answered OK. -/
def configure (fib : Network → Option UInt32) (c : RouteCall) : Network → Option UInt32 :=
  Function.update fib c.network (some c.gateway)

theorem foldl_configure_perm {calls calls' : List RouteCall} (hperm : calls.Perm calls')
    (hnodup : (calls.map RouteCall.network).Nodup) (fib : Network → Option UInt32) :
    calls.foldl configure fib = calls'.foldl configure fib := by
  refine hperm.foldl_eq' (fun x hx y hy fib => ?_) fib
  by_cases hxy : x = y
  · rw [hxy]
  · have hnet : x.network ≠ y.network := fun heq =>
      hxy (List.inj_on_of_nodup_map hnodup hx hy heq)
    exact Function.update_comm hnet _ _ fib

theorem RouteUse.refused_le (u : RouteUse) (calls : List RouteCall) :
    u.refused ≤ (calls.foldl RouteUse.next u).refused := by
  induction calls generalizing u with
  | nil => exact Nat.le_refl _
  | cons c calls ih =>
    refine Nat.le_trans ?_ (ih (u.next c))
    unfold RouteUse.next
    dsimp only
    split
    · exact Nat.le_refl _
    · exact Nat.le_succ _

theorem RouteUse.fib_of_refused (u : RouteUse)
    (h : (calls.foldl RouteUse.next u).refused = u.refused) :
    (calls.foldl RouteUse.next u).fib = calls.foldl configure u.fib := by
  induction calls generalizing u with
  | nil => rfl
  | cons c calls ih =>
    have hle := (u.next c).refused_le calls
    rw [List.foldl_cons] at h ⊢
    rw [h] at hle
    have hnext : (u.next c).refused = u.refused ∧ (u.next c).fib = configure u.fib c := by
      revert hle
      unfold RouteUse.next
      dsimp only
      split
      · exact fun _ => ⟨rfl, rfl⟩
      · exact fun hle => absurd hle (Nat.not_succ_le_self _)
    rw [ih (u.next c) (h.trans hnext.1.symm), hnext.2, List.foldl_cons]

/-- After calls for different networks each of them is in the table or was refused. -/
structure RouteUse.Counts (u : RouteUse) (seen : List RouteCall) : Prop where
  total : u.st.routeCount + u.refused = seen.length
  full : u.refused ≠ 0 → u.st.routeCount = routeMax
  known : ∀ net gateway, u.fib net = some gateway → net ∈ seen.map RouteCall.network

theorem RouteUse.Counts.next {seen : List RouteCall} (h : u.Counts seen) (hu : u.Holds)
    (hnew : c.network ∉ seen.map RouteCall.network) : (u.next c).Counts (seen ++ [c]) := by
  have hlen : (seen ++ [c]).length = seen.length + 1 := by simp
  have hmem : ∀ net, net ∈ seen.map RouteCall.network →
      net ∈ (seen ++ [c]).map RouteCall.network := fun net hnet => by
    rw [List.map_append]
    exact List.mem_append_left _ hnet
  have htotal := h.total
  have hconf := addRoute_configures u.st c
  unfold RouteUse.next
  generalize addRoute u.st c.dest c.mask c.gateway = r at hconf
  cases hconf with
  | @replace i hi hused hnet =>
    have hheld := hu.held i hi hused
    rw [hnet] at hheld
    exact absurd (h.known _ _ hheld) hnew
  | @insert i hi hfree hother =>
    have hcount := countP_range_update (fun j => (u.st.routes j).used)
      (fun j => ((u.st.setRoute i ⟨c.dest &&& c.mask, c.mask, c.gateway, 0, true⟩).routes j).used)
      hi fun j hj => by rw [setRoute_routes_of_ne hj]
    rw [hfree, setRoute_routes_self] at hcount
    have hone : (u.st.setRoute i ⟨c.dest &&& c.mask, c.mask, c.gateway, 0, true⟩).routeCount =
        u.st.routeCount + 1 := hcount
    have hle : (u.st.setRoute i
        ⟨c.dest &&& c.mask, c.mask, c.gateway, 0, true⟩).routeCount ≤ routeMax := by
      rw [Stack.routeCount, ← List.length_range (n := routeMax)]
      exact List.countP_le_length
    refine ⟨?_, fun hrefused => ?_, fun net gateway hfib => ?_⟩
    · show Stack.routeCount (u.st.setRoute i _) + u.refused = _
      omega
    · have hfull := h.full hrefused
      omega
    · by_cases hsame : net = c.network
      · rw [hsame]
        simp
      · exact hmem net (h.known net gateway ((Function.update_of_ne hsame _ _).symm.trans hfib))
  | full hfull =>
    have hcount : u.st.routeCount = routeMax := by
      rw [Stack.routeCount, List.countP_eq_length.mpr fun j hj => hfull j (List.mem_range.mp hj),
        List.length_range]
    refine ⟨?_, fun _ => hcount, fun net gateway hfib => hmem net (h.known net gateway hfib)⟩
    show u.st.routeCount + (u.refused + 1) = _
    omega

theorem RouteUse.Counts.foldl {seen : List RouteCall} (h : u.Counts seen) (hu : u.Holds)
    (calls : List RouteCall) (hnodup : ((seen ++ calls).map RouteCall.network).Nodup) :
    (calls.foldl RouteUse.next u).Counts (seen ++ calls) := by
  induction calls generalizing u seen with
  | nil => simpa using h
  | cons c calls ih =>
    have hnew : c.network ∉ seen.map RouteCall.network := by
      rw [List.map_append, List.map_cons] at hnodup
      exact fun hmem => List.disjoint_of_nodup_append hnodup hmem (List.mem_cons_self ..)
    rw [List.append_cons] at hnodup ⊢
    exact ih (h.next hu hnew) (hu.next c) hnodup

theorem refused_eq_zero_iff (cfg : Config) (hnodup : (calls.map RouteCall.network).Nodup) :
    (routeRun cfg calls).refused = 0 ↔ calls.length ≤ routeMax := by
  have hstart : RouteUse.Counts ⟨.init cfg, fun _ => none, 0⟩ [] :=
    ⟨rfl, fun h => absurd rfl h, fun _ _ h => by cases h⟩
  have hcounts := hstart.foldl ⟨nofun, nofun, nofun, nofun⟩ calls (by simpa using hnodup)
  have htotal := hcounts.total
  rw [List.nil_append] at htotal
  change (routeRun cfg calls).st.routeCount + (routeRun cfg calls).refused = _ at htotal
  have hle : (routeRun cfg calls).st.routeCount ≤ routeMax := by
    rw [Stack.routeCount, ← List.length_range (n := routeMax)]
    exact List.countP_le_length
  constructor
  · intro hzero
    omega
  · intro hlen
    by_contra hrefused
    have hfull := hcounts.full hrefused
    change (routeRun cfg calls).st.routeCount = routeMax at hfull
    omega

theorem route_of_fib {u u' : RouteUse} (hu : u.Holds) (hu' : u'.Holds)
    (hcfg : u.st.Configured cfg) (hcfg' : u'.st.Configured cfg) (hfib : u'.fib = u.fib)
    (hmask : ∀ net gateway, u.fib net = some gateway → Contiguous net.2) (dst : UInt32) :
    route u'.st dst = route u.st dst := by
  rw [hcfg.route_eq, hcfg'.route_eq]
  cases hfind : findRoute u.st dst with
  | some e =>
    obtain ⟨e', hfind', hgateway⟩ :=
      hu'.findRoute_eq (hfib ▸ hmask) (hfib.symm ▸ hu.longest hfind)
    rw [hfind']
    simp only [hgateway]
  | none =>
    cases hfind' : findRoute u'.st dst with
    | none => rfl
    | some e =>
      have hlong := hfib ▸ hu'.longest hfind'
      exact absurd hlong.2.1 (hu.findRoute_none hfind hlong.1)

/-- For contiguous masks `ip_route` returns the next hop of the longest configured
route for the destination; where there is none the connected subnet and then the
default gateway are tried.  The order in which routes to different networks were
added does not matter. -/
theorem route_longest (cfg : Config) (calls : List RouteCall)
    (hmask : ∀ c ∈ calls, Contiguous c.mask) :
    (∀ dst, (∃ net gateway, Longest (routeRun cfg calls).fib dst net gateway ∧
          route (routeRun cfg calls).st dst = .ok (if gateway ≠ 0 then gateway else dst)) ∨
        (∀ net gateway, (routeRun cfg calls).fib net = some gateway → dst &&& net.2 ≠ net.1) ∧
          route (routeRun cfg calls).st dst = fallback cfg dst) ∧
      (∀ dst net gateway, Longest (routeRun cfg calls).fib dst net gateway →
        route (routeRun cfg calls).st dst = .ok (if gateway ≠ 0 then gateway else dst)) ∧
      ∀ calls', calls.Perm calls' → (calls.map RouteCall.network).Nodup →
        (routeRun cfg calls).refused = 0 →
          (routeRun cfg calls').refused = 0 ∧
            ∀ dst, route (routeRun cfg calls').st dst = route (routeRun cfg calls).st dst := by
  have hholds := holds_routeRun cfg calls
  have hcfg := routeRun_configured cfg calls
  have hcontiguous := routeRun_contiguous cfg hmask
  refine ⟨fun dst => ?_, fun dst net gateway hlong => ?_, fun calls' hperm hnodup hzero => ?_⟩
  · rw [hcfg.route_eq]
    cases hfind : findRoute (routeRun cfg calls).st dst with
    | some e => exact .inl ⟨e.network, e.gateway, hholds.longest hfind, rfl⟩
    | none => exact .inr ⟨fun net gateway hfib => hholds.findRoute_none hfind hfib, rfl⟩
  · obtain ⟨e, hfind, hgateway⟩ := hholds.findRoute_eq hcontiguous hlong
    rw [hcfg.route_eq, hfind, ← hgateway]
  · have hnodup' : (calls'.map RouteCall.network).Nodup := (hperm.map _).nodup_iff.mp hnodup
    have hzero' : (routeRun cfg calls').refused = 0 := by
      rw [refused_eq_zero_iff cfg hnodup', ← hperm.length_eq]
      exact (refused_eq_zero_iff cfg hnodup).mp hzero
    refine ⟨hzero', fun dst => ?_⟩
    have hfib : (routeRun cfg calls').fib = (routeRun cfg calls).fib := by
      rw [routeRun, RouteUse.fib_of_refused _ hzero', routeRun, RouteUse.fib_of_refused _ hzero]
      exact (foldl_configure_perm hperm hnodup _).symm
    exact route_of_fib hholds (holds_routeRun cfg calls') hcfg (routeRun_configured cfg calls')
      hfib hcontiguous dst

/-- The routes 10/8 and 10.1/16, added in both orders. -/
theorem route_longest_two :
    route (routeRun ⟨0x0501010A, 0, 0, .all⟩
        [⟨0x010A, 0xFFFF, 0x0201010A⟩, ⟨0x0A, 0xFF, 0x0101010A⟩]).st 0x0701010A =
      route (routeRun ⟨0x0501010A, 0, 0, .all⟩
        [⟨0x0A, 0xFF, 0x0101010A⟩, ⟨0x010A, 0xFFFF, 0x0201010A⟩]).st 0x0701010A :=
  ((route_longest ⟨0x0501010A, 0, 0, .all⟩
    [⟨0x0A, 0xFF, 0x0101010A⟩, ⟨0x010A, 0xFFFF, 0x0201010A⟩] (by decide)).2.2 _
      (List.Perm.swap ..) (by decide) (by decide)).2 0x0701010A

/-- 10.1.1.7 is on the connected subnet 10.1.1/24 of 10.1.1.5, but with the route 10/8
it is sent to the gateway 10.1.1.1.  And of two routes to 10/8 that are given by
different addresses the later one counts. -/
theorem route_passes_subnet :
    (prefixMask 8 = 0xFF ∧ prefixMask 24 = 0xFFFFFF ∧
        (0x0701010A : UInt32) &&& prefixMask 24 = 0x0501010A &&& prefixMask 24 ∧
        route (routeRun ⟨0x0501010A, prefixMask 24, 0, .all⟩
          [⟨0x0A, prefixMask 8, 0x0101010A⟩]).st 0x0701010A = .ok 0x0101010A) ∧
      route (routeRun ⟨0x0501010A, prefixMask 24, 0, .all⟩
          [⟨0x0100000A, prefixMask 8, 0x0101010A⟩, ⟨0x0200000A, prefixMask 8, 0x0201010A⟩]).st
            0x0800000A = .ok 0x0201010A ∧
        route (routeRun ⟨0x0501010A, prefixMask 24, 0, .all⟩
          [⟨0x0200000A, prefixMask 8, 0x0201010A⟩, ⟨0x0100000A, prefixMask 8, 0x0101010A⟩]).st
            0x0800000A = .ok 0x0101010A := by
  refine ⟨⟨by decide, by decide, by decide, rfl⟩, rfl, rfl⟩

end Ip
