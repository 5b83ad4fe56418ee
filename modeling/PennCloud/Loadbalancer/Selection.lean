import PennCloud.Library.LeastLoaded
import PennCloud.Library.Runs
import Mathlib.Algebra.Order.BigOperators.Group.List

/-!
# The load balancer

Every client is redirected to the front end that `get_next_frontend_port` selects: among those marked
alive the one with the least count, and the lowest port where counts are equal. A thread refreshes the
marks. Both work under the one mutex, so a run is a sequence of whole calls and whole updates.
-/

open PennCloud.Library.LeastLoaded PennCloud.Library.Runs

namespace PennCloud.Loadbalancer.Selection

def port0 : UInt16 := 8080

def port1 : UInt16 := 8081

def port2 : UInt16 := 8082

/-- The keys of `frontend_ports`, in the order of the map. -/
def ports : List UInt16 := [port0, port1, port2]

/-- `INT_MAX`. -/
def intMax : ℤ := 2147483647

/-- The maps of the class; no operation adds or removes a port. -/
structure LoadBalancer where
  frontendPorts : List (UInt16 × ℤ)
  frontendStatus : UInt16 → Bool
  known : frontendPorts.map Prod.fst = ports

namespace LoadBalancer

/-- The constructor. -/
def init : LoadBalancer where
  frontendPorts := [(port0, 0), (port1, 0), (port2, 0)]
  frontendStatus := fun port ↦ ports.contains port
  known := rfl

/-- `frontend_ports[port]++`. -/
def bump (lb : LoadBalancer) (port : UInt16) : LoadBalancer where
  frontendPorts := increment lb.frontendPorts port
  frontendStatus := lb.frontendStatus
  known := increment_keys.trans lb.known

/-- `frontend_ports.at(port)`. -/
def count (lb : LoadBalancer) (port : UInt16) : ℤ := (lb.frontendPorts.lookup port).getD 0

def alivePorts (lb : LoadBalancer) : List UInt16 := ports.filter lb.frontendStatus

end LoadBalancer

/-- The selected port and the balancer after it. Port 0 stands for no selection; the first port
takes its place. -/
def getNextFrontendPort (lb : LoadBalancer) : LoadBalancer × UInt16 :=
  let selectedPort := (least lb.frontendStatus (0, intMax) lb.frontendPorts).1
  if selectedPort ≠ 0 then
    (lb.bump selectedPort, selectedPort)
  else
    let selectedPort := ports.head (List.cons_ne_nil _ _)
    (lb.bump selectedPort, selectedPort)

/-- One pass over the front ends, with the outcome of each attempt to connect. -/
def updateFrontendServers (lb : LoadBalancer) (isFrontendAlive : UInt16 → Bool) : LoadBalancer :=
  { lb with
    frontendStatus := lb.frontendPorts.foldl
      (fun status entry ↦ Function.update status entry.1 (isFrontendAlive entry.1))
      lb.frontendStatus }

/-! ## Runs -/

inductive Event
  | update (isFrontendAlive : UInt16 → Bool)
  | call

/-- The balancer and the calls so far, each with the balancer it saw and its answer. -/
structure Traffic where
  lb : LoadBalancer := .init
  calls : List (LoadBalancer × UInt16) := []

def Traffic.step (t : Traffic) : Event → Traffic
  | .update isFrontendAlive => { t with lb := updateFrontendServers t.lb isFrontendAlive }
  | .call =>
    let (lb, port) := getNextFrontendPort t.lb
    { lb := lb, calls := t.calls ++ [(t.lb, port)] }

def machine : Machine Traffic Event where
  step t event := some (t.step event)

/-- Fewer than `INT_MAX` calls in all. -/
def FewCalls (t : Traffic) (event : Event) : Prop :=
  event = .call → (t.calls.length : ℤ) + 1 < intMax

/-- Every call sees the same ports alive. -/
def Steady (alive : List UInt16) (t : Traffic) (event : Event) : Prop :=
  FewCalls t event ∧ (event = .call → t.lb.alivePorts = alive)

/-- The port is known, alive where some port is, and then the lowest of the least loaded ones. -/
structure Selects (lb : LoadBalancer) (port : UInt16) : Prop where
  known : port ∈ ports
  alive : lb.alivePorts ≠ [] → port ∈ lb.alivePorts
  least : ∀ other ∈ lb.alivePorts, lb.count port ≤ lb.count other
  lowest : ∀ other ∈ lb.alivePorts, lb.count other = lb.count port → port ≤ other

/-- The calls are spread evenly over the given ports, and no other port got one. -/
structure Even (alive : List UInt16) (lb : LoadBalancer) : Prop where
  near : ∀ p ∈ alive, ∀ q ∈ alive, lb.count p ≤ lb.count q + 1
  others : ∀ p ∈ ports, p ∉ alive → lb.count p = 0

/-! ## The table of counts -/

theorem keys_nodup (lb : LoadBalancer) : (lb.frontendPorts.map Prod.fst).Nodup := by
  rw [lb.known]
  decide

theorem keys_sorted (lb : LoadBalancer) :
    lb.frontendPorts.Pairwise fun x y ↦ x.1 < y.1 := by
  rw [← List.pairwise_map, lb.known]
  decide

theorem key_mem {lb : LoadBalancer} {entry : UInt16 × ℤ} (h : entry ∈ lb.frontendPorts) :
    entry.1 ∈ ports := by
  rw [← lb.known]
  exact List.mem_map_of_mem h

theorem exists_entry (lb : LoadBalancer) {port : UInt16} (h : port ∈ ports) :
    ∃ entry ∈ lb.frontendPorts, entry.1 = port := by
  rw [← lb.known] at h
  exact List.mem_map.mp h

theorem count_of_mem {lb : LoadBalancer} {entry : UInt16 × ℤ} (h : entry ∈ lb.frontendPorts) :
    lb.count entry.1 = entry.2 := by
  obtain ⟨front, back, hsplit⟩ := List.append_of_mem h
  have hnodup := keys_nodup lb
  rw [hsplit, List.map_append, List.map_cons, List.nodup_append] at hnodup
  have hfront : ∀ p ∈ front, (entry.1 != p.1) = true := by
    intro p hp
    exact bne_iff_ne.mpr (hnodup.2.2 p.1 (List.mem_map_of_mem hp) entry.1 List.mem_cons_self).symm
  have hlookup : lb.frontendPorts.lookup entry.1 = some entry.2 :=
    List.lookup_eq_some_iff.mpr ⟨front, back, hsplit, hfront⟩
  rw [LoadBalancer.count, hlookup]
  rfl

theorem mem_alivePorts {lb : LoadBalancer} {port : UInt16} :
    port ∈ lb.alivePorts ↔ port ∈ ports ∧ lb.frontendStatus port = true := List.mem_filter

/-! ## One call -/

/-- Either the search finds a port, or none is alive and the first port is taken. -/
theorem getNextFrontendPort_cases {lb : LoadBalancer}
    (hcount : ∀ entry ∈ lb.frontendPorts, entry.2 < intMax) :
    (∃ front entry back, FirstLeast lb.frontendStatus lb.frontendPorts front entry back ∧
        getNextFrontendPort lb = (lb.bump entry.1, entry.1)) ∨
      lb.alivePorts = [] ∧ getNextFrontendPort lb = (lb.bump port0, port0) := by
  unfold getNextFrontendPort
  have hcases := @least_cases _ lb.frontendStatus (0, intMax) lb.frontendPorts
  rcases hcases with
    ⟨hkeep, hall⟩ | ⟨front, back, hfirst, -⟩
  · right
    rw [hkeep]
    refine ⟨List.filter_eq_nil_iff.mpr fun port hport halive ↦ ?_, rfl⟩
    obtain ⟨entry, hentry, rfl⟩ := exists_entry lb hport
    exact absurd (hcount entry hentry) (not_lt.mpr (hall entry hentry halive))
  · left
    generalize least lb.frontendStatus (0, intMax) lb.frontendPorts = entry at hfirst
    have hmem := hfirst.mem
    have hzero : (0 : UInt16) ∉ ports := by decide
    have hne : entry.1 ≠ 0 := fun heq ↦ hzero (heq ▸ key_mem hmem)
    exact ⟨front, entry, back, hfirst, if_pos hne⟩

theorem getNextFrontendPort_selects {lb : LoadBalancer}
    (hcount : ∀ entry ∈ lb.frontendPorts, entry.2 < intMax) :
    Selects lb (getNextFrontendPort lb).2 := by
  rcases getNextFrontendPort_cases hcount with ⟨front, entry, back, hfirst, hcall⟩ | ⟨hnone, hcall⟩
  · have hmem := hfirst.mem
    rw [hcall]
    refine ⟨key_mem hmem, fun _ ↦ mem_alivePorts.mpr ⟨key_mem hmem, hfirst.chosen⟩, ?_, ?_⟩
    · intro other hother
      obtain ⟨hport, halive⟩ := mem_alivePorts.mp hother
      obtain ⟨x, hx, rfl⟩ := exists_entry lb hport
      rw [count_of_mem hmem, count_of_mem hx]
      exact hfirst.le x hx halive
    · intro other hother htie
      obtain ⟨hport, halive⟩ := mem_alivePorts.mp hother
      obtain ⟨x, hx, rfl⟩ := exists_entry lb hport
      rw [count_of_mem hmem, count_of_mem hx] at htie
      rcases hfirst.key_lt (keys_sorted lb) x hx halive htie with rfl | hlt
      · exact UInt16.le_refl _
      · exact UInt16.le_of_lt hlt
  · rw [hcall]
    refine ⟨List.mem_cons_self, fun hne ↦ absurd hnone hne, ?_, ?_⟩
    · intro other hother
      rw [hnone] at hother
      exact absurd hother List.not_mem_nil
    · intro other hother
      rw [hnone] at hother
      exact absurd hother List.not_mem_nil

theorem getNextFrontendPort_eq {lb : LoadBalancer}
    (hcount : ∀ entry ∈ lb.frontendPorts, entry.2 < intMax) :
    getNextFrontendPort lb =
      (lb.bump (getNextFrontendPort lb).2, (getNextFrontendPort lb).2) := by
  rcases getNextFrontendPort_cases hcount with ⟨front, entry, back, -, hcall⟩ | ⟨-, hcall⟩
  · rw [hcall]
  · rw [hcall]

/-! ## Whole runs -/

structure Counted (t : Traffic) : Prop where
  total : total t.lb.frontendPorts = t.calls.length
  nonneg : ∀ entry ∈ t.lb.frontendPorts, 0 ≤ entry.2
  few : (t.calls.length : ℤ) < intMax
  selects : ∀ call ∈ t.calls, Selects call.1 call.2

/-- No count reaches the bound from which the search starts. -/
theorem Counted.lt_intMax {t : Traffic} (h : Counted t) :
    ∀ entry ∈ t.lb.frontendPorts, entry.2 < intMax := by
  intro entry hentry
  have hnonneg : ∀ n ∈ t.lb.frontendPorts.map Prod.snd, 0 ≤ n := by
    intro n hn
    obtain ⟨x, hx, rfl⟩ := List.mem_map.mp hn
    exact h.nonneg x hx
  have hle : entry.2 ≤ Library.LeastLoaded.total t.lb.frontendPorts :=
    List.single_le_sum hnonneg _ (List.mem_map_of_mem hentry)
  rw [h.total] at hle
  exact hle.trans_lt h.few

theorem Counted.step {t : Traffic} (h : Counted t) {event : Event} (hfew : FewCalls t event) :
    Counted (t.step event) := by
  cases event with
  | update isFrontendAlive => exact ⟨h.total, h.nonneg, h.few, h.selects⟩
  | call =>
    have hselects := getNextFrontendPort_selects h.lt_intMax
    have hfew := hfew rfl
    simp only [Traffic.step]
    rw [getNextFrontendPort_eq h.lt_intMax]
    refine ⟨?_, ?_, ?_, ?_⟩
    · have hkey : (getNextFrontendPort t.lb).2 ∈ t.lb.frontendPorts.map Prod.fst := by
        rw [t.lb.known]
        exact hselects.known
      rw [LoadBalancer.bump, total_increment (keys_nodup t.lb) hkey, h.total]
      simp
    · intro entry hentry
      obtain ⟨x, hx, -, hcount⟩ := mem_increment hentry
      have hnonneg := h.nonneg x hx
      omega
    · simpa using hfew
    · intro call hcall
      rcases List.mem_append.mp hcall with hold | hnew
      · exact h.selects call hold
      · rw [List.mem_singleton.mp hnew]
        exact hselects

theorem counted_init : Counted {} where
  total := rfl
  nonneg := by decide
  few := by decide
  selects _ h := absurd h List.not_mem_nil

theorem reaches_counted {t : Traffic} (h : Reaches machine FewCalls {} t) : Counted t := by
  refine h.invariant counted_init fun t event next hcounted hfew hstep ↦ ?_
  obtain rfl := Option.some.inj hstep
  exact hcounted.step hfew

/-! ## Balance -/

/-- The entries of the table are balanced over the ports that are always alive. -/
def Spread (alive : List UInt16) (t : Traffic) : Prop :=
  Balanced (fun port ↦ alive.contains port) t.lb.frontendPorts

theorem Spread.step {alive : List UInt16} (hne : alive ≠ []) {t : Traffic} (hcounted : Counted t)
    (h : Spread alive t) {event : Event} (hsteady : event = .call → t.lb.alivePorts = alive) :
    Spread alive (t.step event) := by
  cases event with
  | update isFrontendAlive => exact h
  | call =>
    have halive := hsteady rfl
    rcases getNextFrontendPort_cases hcounted.lt_intMax with
      ⟨front, entry, back, hfirst, hcall⟩ | ⟨hnone, -⟩
    · have hmem := hfirst.mem
      have hcontains : ∀ x ∈ t.lb.frontendPorts,
          alive.contains x.1 = true ↔ t.lb.frontendStatus x.1 = true := by
        intro x hx
        rw [List.contains_iff_mem, ← halive, mem_alivePorts]
        exact and_iff_right (key_mem hx)
      simp only [Spread, Traffic.step, hcall]
      refine h.increment (keys_nodup t.lb) hmem ((hcontains entry hmem).mpr hfirst.chosen) ?_
      intro x hx hcandidate
      exact hfirst.le x hx ((hcontains x hx).mp hcandidate)
    · exact absurd (halive.symm.trans hnone) hne

theorem reaches_spread {alive : List UInt16} (hne : alive ≠ []) {t : Traffic}
    (h : Reaches machine (Steady alive) {} t) : Spread alive t := by
  have hboth : Counted t ∧ Spread alive t := by
    refine h.invariant (I := fun t ↦ Counted t ∧ Spread alive t)
      ⟨counted_init, balanced_of_zero ?_⟩ fun t event next hboth hsteady hstep ↦ ?_
    · decide
    · obtain rfl := Option.some.inj hstep
      exact ⟨hboth.1.step hsteady.1, hboth.2.step hne hboth.1 hsteady.2⟩
  exact hboth.2

theorem Spread.even {alive : List UInt16} {t : Traffic} (h : Spread alive t)
    (hports : ∀ port ∈ alive, port ∈ ports) : Even alive t.lb where
  near p hp q hq := by
    obtain ⟨x, hx, rfl⟩ := exists_entry t.lb (hports p hp)
    obtain ⟨y, hy, rfl⟩ := exists_entry t.lb (hports q hq)
    rw [count_of_mem hx, count_of_mem hy]
    exact h.near x hx y hy (List.contains_iff_mem.mpr hp) (List.contains_iff_mem.mpr hq)
  others p hp hnot := by
    obtain ⟨x, hx, rfl⟩ := exists_entry t.lb hp
    rw [count_of_mem hx]
    exact h.others x hx fun hcontains ↦ hnot (List.contains_iff_mem.mp hcontains)

/-- Every call selects a least loaded front end, the counts add up to the calls, and where every call
finds the same front ends alive, their counts stay within one of each other. -/
theorem reaches_selection {t : Traffic} (h : Reaches machine FewCalls {} t) :
    (∀ call ∈ t.calls, Selects call.1 call.2) ∧
      (ports.map t.lb.count).sum = t.calls.length ∧
      ∀ alive ≠ [], (∀ port ∈ alive, port ∈ ports) → Reaches machine (Steady alive) {} t →
        Even alive t.lb := by
  have hcounted := reaches_counted h
  refine ⟨hcounted.selects, ?_, fun alive hne hports hsteady ↦ ?_⟩
  · rw [← hcounted.total, ← t.lb.known, List.map_map]
    refine congrArg List.sum (List.map_congr_left fun entry hentry ↦ ?_)
    exact count_of_mem hentry
  · exact (reaches_spread hne hsteady).even hports

/-- An update that finds the second front end dead, and three calls for the other two. -/
theorem reaches_selection_three :
    let t := ((((Traffic.step {} (.update fun port ↦ port != port1)).step .call).step .call).step .call)
    (∀ call ∈ t.calls, Selects call.1 call.2) ∧
      (ports.map t.lb.count).sum = t.calls.length ∧ Even [port0, port2] t.lb := by
  have hfirst : Reaches machine (Steady [port0, port2]) {}
      (Traffic.step {} (.update fun port ↦ port != port1)) :=
    .single (e := .update fun port ↦ port != port1)
      ⟨fun h ↦ Event.noConfusion h, fun h ↦ Event.noConfusion h⟩ rfl
  have hcalls : Reaches machine (Steady [port0, port2]) {}
      ((((Traffic.step {} (.update fun port ↦ port != port1)).step .call).step .call).step .call) :=
    ((hfirst.tail (e := .call) ⟨fun _ ↦ by decide, fun _ ↦ by decide⟩ rfl).tail (e := .call)
      ⟨fun _ ↦ by decide, fun _ ↦ by decide⟩ rfl).tail (e := .call)
        ⟨fun _ ↦ by decide, fun _ ↦ by decide⟩ rfl
  have hall := reaches_selection (hcalls.mono fun _ _ h ↦ h.1)
  exact ⟨hall.1, hall.2.1, hall.2.2 [port0, port2] (List.cons_ne_nil _ _) (by simp [ports]) hcalls⟩

end PennCloud.Loadbalancer.Selection
