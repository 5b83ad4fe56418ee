import PennCloud.Frontend.ConsoleConfiguration

/-!
# Shutting a node down and starting it

`adminshutdown` and `adminstartup` go through all partitions for the node of an address and send it
their RPC. The status that they return is that of the last RPC and `OK` before the first one. They
report success for an address that no node has, and so does the console for a number without a node.
-/

open PennCloud.KV.TabletCells
open PennCloud.Coordinator.Election PennCloud.Frontend.ConsoleConfiguration

namespace PennCloud.Frontend.AdminCommands

/-! ## The two commands -/

inductive AdminRpc
  | adminShutdown
  | adminStartup
  deriving DecidableEq

/-- `stt.ok()`, which a new `Status` satisfies, and the RPCs sent so far. -/
structure Calling where
  ok : Bool := true
  sent : List (AdminRpc × Bytes) := []
  deriving DecidableEq

section Commands

variable (rpc : AdminRpc) (outcome : AdminRpc → Bytes → Bool) (thisN : Bytes)

/-- The loop over the nodes of one partition; it ends behind the node of the address. -/
def nodeLoop : List MasterNodeView → Calling → Calling
  | [], s => s
  | thisP :: nodes, s =>
    if thisP.addr ≠ thisN then nodeLoop nodes s
    else { ok := outcome rpc thisP.addr, sent := s.sent ++ [(rpc, thisP.addr)] }

/-- The loop over the partitions has no such end. -/
def partitionLoop (partitions : List MasterPartitionView) (s : Calling) : Calling :=
  partitions.foldl (fun s ppp ↦ nodeLoop rpc outcome thisN ppp.nodes s) s

end Commands

def adminshutdown (outcome : AdminRpc → Bytes → Bool) (partitions : List MasterPartitionView)
    (thisN : Bytes) : Calling :=
  partitionLoop .adminShutdown outcome thisN partitions {}

def adminstartup (outcome : AdminRpc → Bytes → Bool) (partitions : List MasterPartitionView)
    (thisN : Bytes) : Calling :=
  partitionLoop .adminStartup outcome thisN partitions {}

/-- `backend_ports[serverId]`; a missing number gets an empty address. -/
def serverIP (backendPorts : List (ℕ × Bytes)) (serverId : ℤ) : Bytes :=
  ((backendPorts.find? fun port ↦ (port.1 : ℤ) = serverId).map Prod.snd).getD []

/-- The response of `handle_post_admin` for a backend. -/
def backendResponse (outcome : AdminRpc → Bytes → Bool) (partitions : List MasterPartitionView)
    (action : Bytes) (serverId : ℤ) : Bytes :=
  let ip := serverIP (initBackendPorts partitions) serverId
  if action = lit "shutdown" then
    if (adminshutdown outcome partitions ip).ok then
      lit "Backend node " ++ ip ++ lit " successfully shutdown."
    else lit "Failed to shutdown backend node " ++ ip ++ lit "."
  else if action = lit "restart" then
    if (adminstartup outcome partitions ip).ok then
      lit "Backend node " ++ ip ++ lit " successfully started."
    else lit "Failed to start backend node " ++ ip ++ lit "."
  else []

/-- The addresses of the configured nodes. -/
def addresses (partitions : List MasterPartitionView) : List Bytes :=
  partitions.flatMap fun ppp ↦ ppp.nodes.map MasterNodeView.addr

/-- One RPC to a configured node and none to another address, and success only for an RPC that was
sent and succeeded. -/
structure Reports (rpc : AdminRpc) (outcome : AdminRpc → Bytes → Bool)
    (partitions : List MasterPartitionView) (thisN : Bytes) (s : Calling) : Prop where
  sent : s.sent = if thisN ∈ addresses partitions then [(rpc, thisN)] else []
  ok : s.ok = true ↔ ∃ call ∈ s.sent, outcome call.1 call.2 = true

/-! ## The search -/

section Search

variable {rpc : AdminRpc} {outcome : AdminRpc → Bytes → Bool} {thisN : Bytes}

theorem nodeLoop_eq (nodes : List MasterNodeView) (s : Calling) :
    nodeLoop rpc outcome thisN nodes s =
      if thisN ∈ nodes.map MasterNodeView.addr then
        { ok := outcome rpc thisN, sent := s.sent ++ [(rpc, thisN)] }
      else s := by
  induction nodes with
  | nil => rfl
  | cons thisP nodes ih =>
    rw [nodeLoop]
    by_cases haddr : thisP.addr = thisN
    · have hmem : thisN ∈ (thisP :: nodes).map MasterNodeView.addr := by
        rw [List.map_cons, haddr]
        exact List.mem_cons_self
      rw [if_neg (not_not_intro haddr), if_pos hmem, haddr]
    · rw [if_pos haddr, ih, List.map_cons]
      exact if_congr (List.mem_cons.trans (or_iff_right (Ne.symm haddr))).symm rfl rfl

theorem addresses_cons (ppp : MasterPartitionView) (partitions : List MasterPartitionView) :
    addresses (ppp :: partitions) = ppp.nodes.map MasterNodeView.addr ++ addresses partitions :=
  List.flatMap_cons

/-- Nothing is sent to an address that no node has. -/
theorem partitionLoop_of_not_mem {partitions : List MasterPartitionView}
    (h : thisN ∉ addresses partitions) (s : Calling) :
    partitionLoop rpc outcome thisN partitions s = s := by
  induction partitions with
  | nil => rfl
  | cons ppp partitions ih =>
    rw [addresses_cons, List.mem_append, not_or] at h
    rw [partitionLoop, List.foldl_cons, nodeLoop_eq, if_neg h.1]
    exact ih h.2

/-- Behind the only node of an address the search changes nothing more. -/
theorem partitionLoop_of_mem {partitions : List MasterPartitionView}
    (hdistinct : (addresses partitions).Nodup) (h : thisN ∈ addresses partitions) (s : Calling) :
    partitionLoop rpc outcome thisN partitions s =
      { ok := outcome rpc thisN, sent := s.sent ++ [(rpc, thisN)] } := by
  induction partitions with
  | nil => exact absurd h List.not_mem_nil
  | cons ppp partitions ih =>
    rw [addresses_cons] at h hdistinct
    obtain ⟨-, hrest, hdisjoint⟩ := List.nodup_append'.mp hdistinct
    rw [partitionLoop, List.foldl_cons, nodeLoop_eq]
    rcases List.mem_append.mp h with hhere | hthere
    · rw [if_pos hhere]
      exact partitionLoop_of_not_mem (hdisjoint hhere) _
    · rw [if_neg fun hhere ↦ hdisjoint hhere hthere]
      exact ih hrest hthere

theorem partitionLoop_reports_iff {partitions : List MasterPartitionView}
    (hdistinct : (addresses partitions).Nodup) :
    Reports rpc outcome partitions thisN (partitionLoop rpc outcome thisN partitions {}) ↔
      thisN ∈ addresses partitions := by
  by_cases hmem : thisN ∈ addresses partitions
  · refine iff_of_true ?_ hmem
    rw [partitionLoop_of_mem hdistinct hmem]
    refine ⟨(if_pos hmem).symm, ?_⟩
    simp
  · refine iff_of_false (fun h ↦ ?_) hmem
    rw [partitionLoop_of_not_mem hmem] at h
    obtain ⟨call, hcall, -⟩ := h.ok.mp rfl
    exact List.not_mem_nil hcall

end Search

/-! ## The reports -/

/-- Both commands report what happened exactly for the addresses of configured nodes. -/
theorem commands_report_iff (partitions : List MasterPartitionView)
    (hdistinct : (addresses partitions).Nodup) (outcome : AdminRpc → Bytes → Bool)
    (thisN : Bytes) :
    (Reports .adminShutdown outcome partitions thisN (adminshutdown outcome partitions thisN) ↔
        thisN ∈ addresses partitions) ∧
      (Reports .adminStartup outcome partitions thisN (adminstartup outcome partitions thisN) ↔
        thisN ∈ addresses partitions) :=
  ⟨partitionLoop_reports_iff hdistinct, partitionLoop_reports_iff hdistinct⟩

def twoPartitions : List MasterPartitionView :=
  [{ nodes := [{ addr := lit "a:1" }] }, { nodes := [{ addr := lit "b:2" }] }]

theorem commands_report_second :
    (Reports .adminShutdown (fun _ _ ↦ true) twoPartitions (lit "b:2")
        (adminshutdown (fun _ _ ↦ true) twoPartitions (lit "b:2")) ↔
        lit "b:2" ∈ addresses twoPartitions) ∧
      (Reports .adminStartup (fun _ _ ↦ true) twoPartitions (lit "b:2")
        (adminstartup (fun _ _ ↦ true) twoPartitions (lit "b:2")) ↔
        lit "b:2" ∈ addresses twoPartitions) :=
  commands_report_iff twoPartitions (by decide +kernel) (fun _ _ ↦ true) (lit "b:2")

/-- No node has the number 2: its address is empty, nothing is sent, and the console reports success. -/
theorem unknown_node_shut_down :
    (addresses twoPartitions).Nodup ∧
      ¬Reports .adminShutdown (fun _ _ ↦ false) twoPartitions []
        (adminshutdown (fun _ _ ↦ false) twoPartitions []) ∧
      backendResponse (fun _ _ ↦ false) twoPartitions (lit "shutdown") 2 =
        lit "Backend node  successfully shutdown." := by
  refine ⟨by decide +kernel, fun h ↦ ?_, by decide +kernel⟩
  obtain ⟨call, hcall, -⟩ := h.ok.mp (by decide +kernel)
  have hnone : (adminshutdown (fun _ _ ↦ false) twoPartitions []).sent = [] := by decide +kernel
  rw [hnone] at hcall
  exact List.not_mem_nil hcall

end PennCloud.Frontend.AdminCommands
