import PennCloud.Coordinator.Configuration

/-!
# The channel of a client's partition

A client opens one channel for all nodes of a partition. The target should list every address; the loop
that builds it stops one node too early, and writes a comma behind each of the others. The last node is
never reached, and a partition of one node has no address at all.
-/

open PennCloud.Library.Loops PennCloud.KV.TabletCells PennCloud.Coordinator.Configuration

namespace PennCloud.Coordinator.ClientChannels

/-- `-k + size()`, in `size_t`. -/
def sizeMinus (size k : ℕ) : ℕ := if k ≤ size then size - k else size + 2 ^ 64 - k

/-- The constructor reads behind its nodes, or the bound on the turns is reached. -/
inductive Failure
  | looping
  | outOfRange

def targetTurn (nodes : List Node) (s : ℕ × Bytes) : Except Failure (Turn (ℕ × Bytes)) :=
  let (idx, prefixAdd) := s
  if idx < sizeMinus nodes.length 1 then
    match nodes[idx]? with
    | none => .error .outOfRange
    | some node =>
      let prefixAdd := prefixAdd ++ node.addr
      let prefixAdd :=
        if idx ≤ sizeMinus nodes.length 2 then prefixAdd ++ [comma] else prefixAdd
      .ok (.again (idx + 1, prefixAdd))
  else .ok (.done s)

/-- The loop of `Partition::Partition`: the target of the channel. -/
def channelTarget (turns : ℕ) (nodes : List Node) : Except Failure Bytes :=
  (loop .looping (targetTurn nodes) turns (0, lit "ipv4:")).map Prod.snd

/-- The loop builds the target that the client's partition has. -/
theorem channelTarget_eq {nodes : List Node} (hne : nodes ≠ []) {turns : ℕ}
    (hturns : nodes.length ≤ turns) :
    channelTarget turns nodes = .ok (ClientPartition.prefixAdd { nodes := nodes }) := by
  have hpos := List.length_pos_iff.mpr hne
  have hone : sizeMinus nodes.length 1 = nodes.length - 1 := if_pos hpos
  suffices htotal : ∃ s, loop .looping (targetTurn nodes) turns (0, lit "ipv4:") = .ok s ∧
      s.2 = ClientPartition.prefixAdd { nodes := nodes } by
    obtain ⟨s, hloop, htarget⟩ := htotal
    rw [channelTarget, hloop]
    exact congrArg Except.ok htarget
  refine loop_total (I := fun s ↦ s.1 ≤ nodes.length - 1 ∧
    s.2 = lit "ipv4:" ++ (nodes.take s.1).flatMap fun node ↦ node.addr ++ [comma])
    (fun s ↦ nodes.length - 1 - s.1) ?_ ⟨Nat.zero_le _, by simp⟩ (by omega)
  rintro ⟨idx, target⟩ ⟨hle, htarget⟩
  dsimp only at hle htarget
  rcases Nat.lt_or_ge idx (nodes.length - 1) with hlt | hge
  · have hidx : idx < nodes.length := by omega
    have htwo : idx ≤ sizeMinus nodes.length 2 := by
      rw [sizeMinus, if_pos (by omega)]
      omega
    refine .inr ⟨(idx + 1, target ++ nodes[idx].addr ++ [comma]), ?_, ⟨?_, ?_⟩, ?_⟩
    · rw [targetTurn, hone, if_pos hlt, List.getElem?_eq_getElem hidx]
      dsimp only
      rw [if_pos htwo]
    · dsimp only
      omega
    · dsimp only
      rw [htarget, List.take_succ_eq_append_getElem hidx, List.flatMap_append]
      simp only [List.flatMap_singleton, List.append_assoc]
    · dsimp only
      omega
  · obtain rfl : idx = nodes.length - 1 := Nat.le_antisymm hle hge
    refine .inl ⟨(nodes.length - 1, target), ?_, ?_⟩
    · rw [targetTurn, hone, if_neg (Nat.lt_irrefl _)]
    · rw [htarget, ClientPartition.prefixAdd, List.dropLast_eq_take]

/-! ## Reaching the nodes -/

/-- The target of a channel lists these addresses. -/
def listTarget (addrs : List Bytes) : Bytes := lit "ipv4:" ++ [comma].intercalate addrs

/-- The addresses that a channel reads out of its target. -/
def readTarget (target : Bytes) : List Bytes := (target.drop 5).splitOn comma

theorem readTarget_listTarget {addrs : List Bytes} (hne : addrs ≠ [])
    (h : ∀ addr ∈ addrs, comma ∉ addr) : readTarget (listTarget addrs) = addrs :=
  List.splitOn_intercalate comma h hne

theorem splitOn_flatMap_comma {addrs : List Bytes} (h : ∀ addr ∈ addrs, comma ∉ addr) :
    (addrs.flatMap fun addr ↦ addr ++ [comma]).splitOn comma = addrs ++ [[]] := by
  induction addrs with
  | nil => rfl
  | cons addr addrs ih =>
    obtain ⟨haddr, haddrs⟩ := List.forall_mem_cons.mp h
    rw [List.flatMap_cons, List.append_assoc, List.singleton_append,
      List.splitOn_append_cons_self_of_not_mem haddr, ih haddrs, List.cons_append]

theorem readTarget_prefixAdd {nodes : List Node} (h : ∀ node ∈ nodes, comma ∉ node.addr) :
    readTarget (ClientPartition.prefixAdd { nodes := nodes }) =
      nodes.dropLast.map Node.addr ++ [[]] := by
  have hcommas : ∀ addr ∈ nodes.dropLast.map Node.addr, comma ∉ addr := by
    intro addr hmem
    obtain ⟨node, hnode, rfl⟩ := List.mem_map.mp hmem
    exact h node (List.mem_of_mem_dropLast hnode)
  rw [← splitOn_flatMap_comma hcommas, List.flatMap_map]
  rfl

/-- The channel of a partition never reaches its last node: in its place there is an empty address. -/
theorem channel_misses_last_node (nodes : List Node) (hne : nodes ≠ [])
    (haddrs : ∀ node ∈ nodes, node.addr ≠ [] ∧ comma ∉ node.addr) (turns : ℕ)
    (hturns : nodes.length ≤ turns) :
    ∃ target, channelTarget turns nodes = .ok target ∧
      target ≠ listTarget (nodes.map Node.addr) ∧ readTarget target ≠ nodes.map Node.addr ∧
      readTarget target = nodes.dropLast.map Node.addr ++ [[]] := by
  have hread := readTarget_prefixAdd fun node hnode ↦ (haddrs node hnode).2
  have hmissed : readTarget (ClientPartition.prefixAdd { nodes := nodes }) ≠
      nodes.map Node.addr := by
    intro hall
    rw [hread, ← List.dropLast_append_getLast hne, List.dropLast_concat, List.map_append,
      List.append_cancel_left_eq] at hall
    exact (haddrs _ (List.getLast_mem hne)).1 (List.cons.inj hall).1.symm
  refine ⟨_, channelTarget_eq hne hturns, ?_, hmissed, hread⟩
  intro htarget
  apply hmissed
  rw [htarget]
  apply readTarget_listTarget
  · exact fun hnil ↦ hne (List.map_eq_nil_iff.mp hnil)
  · intro addr hmem
    obtain ⟨node, hnode, rfl⟩ := List.mem_map.mp hmem
    exact (haddrs node hnode).2

def twoNodes : List Node :=
  [{ addr := lit "a:60", alive := true }, { addr := lit "b:61", alive := true }]

theorem channel_misses_last_of_two :
    ∃ target, channelTarget 2 twoNodes = .ok target ∧
      target ≠ listTarget (twoNodes.map Node.addr) ∧ readTarget target ≠ twoNodes.map Node.addr ∧
      readTarget target = twoNodes.dropLast.map Node.addr ++ [[]] :=
  channel_misses_last_node twoNodes (List.cons_ne_nil _ _) (by decide +kernel) 2 (by decide)

theorem target_of_two_nodes :
    channelTarget 2 twoNodes = .ok (lit "ipv4:a:60,") ∧
      lit "ipv4:a:60," ≠ listTarget (twoNodes.map Node.addr) := by
  constructor
  · rfl
  · decide +kernel

/-! ## The nodes that are reached -/

/-- The channel lists the node with this index. -/
def Listed (nodes : List Node) (i : ℕ) : Prop :=
  ∃ target node, channelTarget nodes.length nodes = .ok target ∧ nodes[i]? = some node ∧
    node.addr ≠ [] ∧ node.addr ∈ readTarget target

theorem Listed.lt_length {nodes : List Node} {i : ℕ} (h : Listed nodes i) : i < nodes.length := by
  obtain ⟨target, node, -, hnode, -⟩ := h
  exact (List.getElem?_eq_some_iff.mp hnode).1

/-- In a list without repetitions, the elements in front of the last one are known by their index. -/
theorem getElem_mem_dropLast_iff {α : Type} [DecidableEq α] {l : List α} (h : l.Nodup) {i : ℕ} (hi : i < l.length) :
    l[i] ∈ l.dropLast ↔ i + 1 < l.length := by
  rw [List.mem_dropLast_iff_idxOf_lt (List.getElem_mem hi), h.idxOf_getElem i hi]
  exact Nat.lt_sub_iff_add_lt

/-- All nodes but the last are reached. -/
theorem listed_iff {nodes : List Node} (haddrs : ∀ node ∈ nodes, node.addr ≠ [] ∧ comma ∉ node.addr)
    (hdistinct : (nodes.map Node.addr).Nodup) {i : ℕ} : Listed nodes i ↔ i + 1 < nodes.length := by
  have hread := readTarget_prefixAdd fun node hnode ↦ (haddrs node hnode).2
  have hmem : ∀ (hi : i < nodes.length),
      nodes[i].addr ∈ readTarget (ClientPartition.prefixAdd { nodes := nodes }) ↔
        i + 1 < nodes.length := by
    intro hi
    have hlength : i < (nodes.map Node.addr).length := by rwa [List.length_map]
    have hindex := getElem_mem_dropLast_iff hdistinct hlength
    simp only [List.getElem_map, List.length_map] at hindex
    rw [hread, List.mem_append, List.mem_singleton,
      or_iff_left (haddrs _ (List.getElem_mem hi)).1, List.map_dropLast, hindex]
  constructor
  · rintro ⟨target, node, htarget, hnode, -, hlisted⟩
    have hnodes : nodes ≠ [] := List.ne_nil_of_mem (List.mem_of_getElem? hnode)
    rw [channelTarget_eq hnodes le_rfl] at htarget
    obtain rfl := Except.ok.inj htarget
    obtain ⟨hi, rfl⟩ := List.getElem?_eq_some_iff.mp hnode
    exact (hmem hi).mp hlisted
  · intro hlt
    have hi : i < nodes.length := Nat.lt_of_succ_lt hlt
    have hnodes : nodes ≠ [] := List.ne_nil_of_length_pos (Nat.zero_lt_of_lt hi)
    exact ⟨_, nodes[i], channelTarget_eq hnodes le_rfl, List.getElem?_eq_getElem hi,
      (haddrs _ (List.getElem_mem hi)).1, (hmem hi).mpr hlt⟩

end PennCloud.Coordinator.ClientChannels
