import PennCloud.KV.CheckpointFile
import PennCloud.KV.LogFile
import PennCloud.KV.Handlers

/-!
# Synchronisation at start-up

A starting node restores its tablet from checkpoint and log, asks a living peer for its cells and
stores each of them. Nothing is ever erased: a cell the peer no longer has stays, so a deletion
the node missed is undone there. The copy is exact where the node has no cell the peer lacks. At
present this is the only case, since the restored tablet is always empty.
-/

open PennCloud.Library.WriteLog
open PennCloud.KV.TabletCells PennCloud.KV.DiskRecord PennCloud.KV.LogFile
open PennCloud.KV.CheckpointFile PennCloud.KV.PrimaryView PennCloud.KV.Handlers

namespace PennCloud.KV.TabletSync

/-- `TabletSync`: one message for each cell, in the order of the two loops, and the status the
stream ends with. -/
def tabletSync (node : KVNode) : List KeyValue × Status :=
  if ¬node.statusServ then
    ([], { code := .unavailable, message := "Admin has terminated the node!" })
  else
    ((tabletEntries node.tablet).map fun entry ↦
      { row := entry.1, col := entry.2.1, value := entry.2.2 }, { code := .ok })

/-- `peer_to_syn_tab` with the messages it reads and the final status, which is only reported. -/
def peerToSynTab (tablet : Tablet) (read : List KeyValue) (finish : Status) : Tablet × Bool :=
  (read.foldl (fun tablet pair ↦ (conductP tablet pair.row pair.col pair.value).1) tablet,
    finish.code = .ok)

/-- `start_initialize`; `sync` is what the chosen peer sends, if the coordinator names one. -/
def startInitialize (file log : Option Bytes) (logOpens : Bool)
    (sync : Option (List KeyValue × Status)) : Except Abort Tablet := do
  let tablet ← tblLding file ∅
  let (tablet, _) ← logOperation log tablet
  if logOpens then
    match sync with
    | none => return tablet
    | some (read, finish) => return (peerToSynTab tablet read finish).1
  else
    throw (.exit 1)

theorem tabletSync_of_ok {peer : KVNode} (h : (tabletSync peer).2.code = .ok) :
    (tabletSync peer).1 = (tabletEntries peer.tablet).map fun entry ↦
      { row := entry.1, col := entry.2.1, value := entry.2.2 } := by
  unfold tabletSync at h ⊢
  split
  · next hdown =>
    rw [if_pos hdown] at h
    cases h
  · rfl

/-- A cell of the peer is copied, every other one stays as it was. -/
theorem peerToSynTab_cells (tablet : Tablet) {peer : KVNode}
    (h : (tabletSync peer).2.code = .ok) (key : Bytes × Bytes) :
    cells (peerToSynTab tablet (tabletSync peer).1 (tabletSync peer).2).1 key =
      (cells peer.tablet key).or (cells tablet key) := by
  rw [peerToSynTab, tabletSync_of_ok h, List.foldl_map]
  dsimp only
  rw [foldl_conductP_cells]
  cases hcell : cells peer.tablet key with
  | none =>
    rw [Option.none_or]
    apply replay_entries_of_not_mem
    rintro ⟨entry, hentry, rfl⟩
    rw [(mem_tabletEntries_iff peer.tablet _ _ _).mp hentry] at hcell
    cases hcell
  | some ddt =>
    have hentry := (mem_tabletEntries_iff peer.tablet key.1 key.2 ddt).mpr hcell
    rw [Option.some_or, ← hcell]
    exact replay_entries_of_mem _ (List.Subset.refl _) ⟨_, hentry, rfl⟩

/-- After the synchronisation the node has exactly the peer's cells. -/
def CopiesPeer (tablet : Tablet) (peer : KVNode) : Prop :=
  SameCells (peerToSynTab tablet (tabletSync peer).1 (tabletSync peer).2).1 peer.tablet

theorem copiesPeer_iff (tablet : Tablet) (peer : KVNode) (h : (tabletSync peer).2.code = .ok) :
    CopiesPeer tablet peer ↔ ∀ key, cells peer.tablet key = none → cells tablet key = none := by
  constructor
  · intro hcopies key hnone
    have hkey := congrFun hcopies key
    rwa [peerToSynTab_cells tablet h, hnone, Option.none_or] at hkey
  · intro hlacks
    funext key
    rw [peerToSynTab_cells tablet h]
    cases hcell : cells peer.tablet key with
    | none => rw [Option.none_or, hlacks key hcell]
    | some ddt => rfl

/-- A peer that has no cells, as after a deletion. -/
def emptyPeer : KVNode where
  addr := lit "b"
  peerAddrs := [lit "a"]

theorem copiesPeer_iff_emptyPeer :
    (tabletSync emptyPeer).2.code = .ok ∧
      (CopiesPeer oneCell emptyPeer ↔
        ∀ key, cells emptyPeer.tablet key = none → cells oneCell key = none) :=
  ⟨rfl, copiesPeer_iff oneCell emptyPeer rfl⟩

/-- The node keeps the cell that was deleted while it was down. -/
theorem sync_keeps_deleted_cell :
    (tabletSync emptyPeer).2.code = .ok ∧ ¬CopiesPeer oneCell emptyPeer := by
  refine ⟨rfl, fun hcopies ↦ ?_⟩
  have hkey := congrFun hcopies (lit "row", lit "col")
  have hcell : cells oneCell (lit "row", lit "col") = some (lit "value") := by decide
  rw [peerToSynTab_cells oneCell rfl, hcell] at hkey
  cases hkey

/-! ## At present -/

/-- A start that does not end the process has restored nothing. -/
theorem tblLding_eq_empty {file : Option Bytes} {tablet : Tablet}
    (h : tblLding file ∅ = .ok tablet) : tablet = ∅ := by
  cases file with
  | none =>
    cases h
    rfl
  | some content =>
    cases content with
    | nil =>
      rw [tblLding, loadLoop_nil] at h
      cases h
      rfl
    | cons b bs =>
      rw [tblLding, loadLoop_cons] at h
      cases h

theorem logOperation_tablet (log : Option Bytes) (tablet : Tablet) :
    ∃ count, logOperation log tablet = .ok (tablet, count) := by
  cases log with
  | none => exact ⟨-1, rfl⟩
  | some content => exact ⟨0, logOperation_some content tablet⟩

/-- So the copy is exact at every start. -/
theorem startInitialize_copies {file log : Option Bytes} {logOpens : Bool} {peer : KVNode}
    {tablet : Tablet} (hpeer : (tabletSync peer).2.code = .ok)
    (h : startInitialize file log logOpens (some (tabletSync peer)) = .ok tablet) :
    SameCells tablet peer.tablet := by
  unfold startInitialize at h
  cases hload : tblLding file ∅ with
  | error e =>
    rw [hload] at h
    cases h
  | ok restored =>
    obtain ⟨count, hreplay⟩ := logOperation_tablet log restored
    have hempty := tblLding_eq_empty hload
    rw [hload] at h
    simp only [bind, Except.bind, hreplay] at h
    split at h
    · cases h
      refine (copiesPeer_iff restored peer hpeer).mpr fun key _ ↦ ?_
      rw [hempty, cells_empty]
    · cases h

end PennCloud.KV.TabletSync
