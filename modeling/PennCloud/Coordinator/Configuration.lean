import PennCloud.Coordinator.Views
import PennCloud.Library.FileStream
import PennCloud.Library.Loops
import Mathlib.Algebra.Order.Ring.Int

/-!
# The configuration file

The coordinator and every storage node read the same file: the coordinator's address, then a line
for each partition with the addresses of its nodes between commas. Both cut a line in a loop of
their own over `int` positions. The clients get the partitions from the coordinator. All of them
mean the same node by an index, although a storage node leaves itself out of its list of peers.
-/

open PennCloud.Library.CppString PennCloud.Library.FileStream PennCloud.Library.FileStream.InStream
open PennCloud.Library.Loops
open PennCloud.KV.TabletCells PennCloud.KV.PrimaryView
open PennCloud.Coordinator.Election PennCloud.Coordinator.Views

namespace PennCloud.Coordinator.Configuration

/-- How a program ends before it serves; `looping` where the bound on the turns is reached. -/
inductive Abort
  | looping
  | exit (message : String)
  | thrown (e : StdException)

def ofStd {α : Type} : Except StdException α → Except Abort α := Except.mapError .thrown

/-! ## One line -/

def comma : UInt8 := 44

/-- The variables of the loop over a line. -/
structure Scan (β : Type) where
  x : ℤ := 0
  y : ℤ := 0
  found : List β := []

variable {β : Type}

/-- One turn; `y` is compared with `npos` as an `int`. -/
def scanTurn (make : Bytes → β) (thisL : Bytes) (s : Scan β) : Except Abort (Turn (Scan β)) :=
  if intToSize s.y = npos then
    .ok (.done s)
  else do
    let y := sizeToInt (findFrom thisL comma (intToSize s.x))
    let len := if intToSize y = npos then y else y - s.x
    let outStr ← ofStd (substr thisL (intToSize s.x) (intToSize len))
    return .again { x := y + 1, y := y, found := s.found ++ [make outStr] }

/-- The loop of both programs, with what they make of an address. -/
def scanLine (make : Bytes → β) (turns : ℕ) (thisL : Bytes) : Except Abort (List β) :=
  (loop .looping (scanTurn make thisL) turns {}).map Scan.found

/-! ## The coordinator -/

structure KVMaster where
  addr : Bytes
  partitions : List MasterPartitionView

/-- The constructor of a node's view at the coordinator. -/
def makeNode (addr : Bytes) : MasterNodeView := { addr := addr }

/-- `while (getline(file, line))`, with a partition for each line. -/
def readTurn (scan : Bytes → Except Abort (List MasterNodeView))
    (s : InStream × List MasterPartitionView) :
    Except Abort (Turn (InStream × List MasterPartitionView)) :=
  match s.1.getline with
  | (stream, none) => .ok (.done (stream, s.2))
  | (stream, some line) => do
    let nodes ← scan line
    return .again (stream, s.2 ++ [{ nodes := nodes }])

/-- `while (getline(input_file, this_l))`. -/
def partitionTurn (turns : ℕ) :
    InStream × List MasterPartitionView → Except Abort (Turn (InStream × List MasterPartitionView)) :=
  readTurn (scanLine makeNode turns)

/-- `main` of the coordinator up to its service; `none` is a file that does not open. -/
def coordinatorMain (turns : ℕ) (file : Option Bytes) : Except Abort KVMaster :=
  match file with
  | none => .error (.exit "Open failed!\n")
  | some text =>
    match ({ rest := text } : InStream).getline with
    | (_, none) => .error (.exit "First line getting failure!\n")
    | (stream, some addM) => do
      let (_, partitions) ← loop .looping (partitionTurn turns) turns (stream, [])
      return { addr := addM, partitions := partitions }

/-! ## A storage node -/

/-- The service that a storage node starts. -/
structure StorageNode where
  view : NodeView
  partitionIdx : ℕ
  masterAddr : Bytes

/-- The call of `getline` for a line that is passed over. -/
def skipLine (stream : InStream) : InStream := stream.getline.1

/-- `main` of a storage node up to its service, with the arguments for the line and the node. -/
def kvServerMain (turns : ℕ) (file : Option Bytes) (lineArg nodeArg : Bytes) :
    Except Abort StorageNode := do
  let partitionLineIdx ← ofStd (stoi lineArg)
  let idNode ← ofStd (stoi nodeArg)
  if ¬1 ≤ partitionLineIdx then
    throw (.exit "<Error> Partition ID wrong!\n")
  match file with
  | none => throw (.exit "<Error> Open file error!\n")
  | some text =>
    match ({ rest := text } : InStream).getline with
    | (_, none) => throw (.exit "<Error> Config file format  error! Missing master address!\n")
    | (stream, some addrM) =>
      match (skipLine^[(partitionLineIdx - 1).toNat] stream).getline with
      | (_, none) => throw (.exit "<Error> Partition missing!\n")
      | (_, some thisL) =>
        let pForPart ← scanLine id turns thisL
        if ¬(idNode < sizeToInt pForPart.length ∧ ¬idNode < 0) then
          throw (.exit "<Error Node out of bound!\n")
        return {
          view := {
            addr := pForPart.getD idNode.toNat []
            peerAddrs := pForPart.eraseIdx idNode.toNat }
          partitionIdx := ((-1 + partitionLineIdx) % 2 ^ 32).toNat
          masterAddr := addrM }

/-! ## A client -/

/-- `NodeView_Node`. -/
structure ViewNode where
  address : Bytes
  alive : Bool

/-- `NodeView_Partition`. -/
structure ViewPartition where
  primaryIdx : ℤ
  node : List ViewNode

/-- The coordinator's answer with all its partitions. -/
def getNodeView (partitions : List MasterPartitionView) : List ViewPartition :=
  partitions.map fun thisPn ↦ {
    primaryIdx := thisPn.primaryIdx
    node := thisPn.nodes.map fun thisN ↦ { address := thisN.addr, alive := thisN.alive } }

/-- A client's node. -/
structure Node where
  addr : Bytes
  alive : Bool

/-- A client's partition. The channel is opened to all nodes but the last. -/
structure ClientPartition where
  nodes : List Node

def ClientPartition.prefixAdd (partition : ClientPartition) : Bytes :=
  lit "ipv4:" ++ partition.nodes.dropLast.flatMap fun node ↦ node.addr ++ [comma]

/-- `renew_part`, with the answer to `GetNodeView` or the status that it fails with. -/
def renewPart (mrsp : Except Status (List ViewPartition)) : Except Status (List ClientPartition) :=
  mrsp.map fun partitions ↦ partitions.map fun pp ↦
    { nodes := pp.node.map fun nn ↦ { addr := nn.address, alive := nn.alive } }

/-! ## The loop over a line -/

theorem intToSize_ne_npos {n : ℕ} (h : n < 2 ^ 31) : intToSize (n : ℤ) ≠ npos := by
  rw [intToSize_natCast (by omega)]
  unfold npos
  omega

/-- What holds between the turns: at the end everything is found, and before it the pieces of the
text from `x` on are left. -/
def Scanned (make : Bytes → β) (thisL : Bytes) (s : Scan β) : Prop :=
  s.y = -1 ∧ s.found = (thisL.splitOn comma).map make ∨
    ∃ x y : ℕ, s.x = x ∧ s.y = y ∧ x ≤ thisL.length ∧ y < 2 ^ 31 ∧
      s.found ++ ((thisL.drop x).splitOn comma).map make = (thisL.splitOn comma).map make

/-- How much of the line is left. -/
def left (thisL : Bytes) (s : Scan β) : ℕ :=
  if s.y = -1 then 0 else thisL.length - s.x.toNat + 1

theorem scanTurn_last (make : Bytes → β) {thisL : Bytes} (hshort : thisL.length < 2 ^ 31)
    {s : Scan β} {x y : ℕ} (hx : s.x = x) (hy : s.y = y) (hle : x ≤ thisL.length) (hlt : y < 2 ^ 31)
    (hnone : comma ∉ thisL.drop x) :
    scanTurn make thisL s =
      .ok (.again { x := 0, y := -1, found := s.found ++ [make (thisL.drop x)] }) := by
  have hnpos : sizeToInt npos = -1 := by decide
  have hback : intToSize (-1) = npos := by decide
  have hsubstr : substr thisL x npos = .ok (thisL.drop x) := by
    rw [substr, if_neg (Nat.not_lt.mpr hle), List.take_of_length_le]
    rw [List.length_drop]
    unfold npos
    omega
  unfold scanTurn
  rw [hx, hy, if_neg (intToSize_ne_npos hlt), intToSize_natCast (by omega)]
  dsimp only
  rw [findFrom_of_not_mem hnone, hnpos, if_pos hback, hback, hsubstr]
  rfl

theorem scanTurn_comma (make : Bytes → β) {thisL : Bytes} (hshort : thisL.length < 2 ^ 31)
    {s : Scan β} {x y : ℕ} (hx : s.x = x) (hy : s.y = y) (hle : x ≤ thisL.length) (hlt : y < 2 ^ 31)
    {piece rest : Bytes} (hdrop : thisL.drop x = piece ++ comma :: rest) (hpiece : comma ∉ piece) :
    scanTurn make thisL s = .ok (.again {
      x := (x + piece.length + 1 : ℕ)
      y := (x + piece.length : ℕ)
      found := s.found ++ [make piece] }) := by
  have hlength := length_of_drop hdrop
  have hsubstr : substr thisL x piece.length = .ok piece := by
    rw [substr, if_neg (Nat.not_lt.mpr hle), hdrop, List.take_left]
  have hlen : ((x + piece.length : ℕ) : ℤ) - x = piece.length := by
    rw [Nat.cast_add]
    exact add_sub_cancel_left _ _
  unfold scanTurn
  rw [hx, hy, if_neg (intToSize_ne_npos hlt), intToSize_natCast (by omega)]
  dsimp only
  rw [findFrom_of_drop hdrop hpiece, sizeToInt_natCast (by omega), if_neg (intToSize_ne_npos (by omega)), hlen,
    intToSize_natCast (by omega), hsubstr]
  rfl

/-- The loop ends with the pieces between the commas. -/
theorem scanLine_eq (make : Bytes → β) {thisL : Bytes} (hshort : thisL.length < 2 ^ 31) {turns : ℕ}
    (hturns : thisL.length + 1 < turns) :
    scanLine make turns thisL = .ok ((thisL.splitOn comma).map make) := by
  suffices htotal : ∃ s, loop .looping (scanTurn make thisL) turns {} = .ok s ∧
      s.found = (thisL.splitOn comma).map make by
    obtain ⟨s, hloop, hfound⟩ := htotal
    rw [scanLine, hloop]
    exact congrArg Except.ok hfound
  refine loop_total (I := Scanned make thisL) (left thisL) ?_ ?_ ?_
  · rintro s (⟨hy, hfound⟩ | ⟨x, y, hx, hy, hle, hlt, hfound⟩)
    · refine .inl ⟨s, ?_, hfound⟩
      rw [scanTurn, hy]
      rfl
    · right
      have hleft : left thisL s = thisL.length - x + 1 := by
        rw [left, hx, hy, if_neg (by omega), Int.toNat_natCast]
      by_cases hmem : comma ∈ thisL.drop x
      · obtain ⟨piece, rest, hdrop, hpiece⟩ := List.eq_append_cons_of_mem hmem
        have hlength := length_of_drop hdrop
        refine ⟨_, scanTurn_comma make hshort hx hy hle hlt hdrop hpiece, .inr ?_, ?_⟩
        · refine ⟨x + piece.length + 1, x + piece.length, rfl, rfl, by omega, by omega, ?_⟩
          rw [drop_behind hdrop, ← hfound, hdrop, List.splitOn_append_cons_self_of_not_mem hpiece,
            List.map_cons, List.append_assoc]
          rfl
        · rw [hleft, left]
          dsimp only
          rw [if_neg (by omega), Int.toNat_natCast]
          omega
      · refine ⟨_, scanTurn_last make hshort hx hy hle hlt hmem, .inl ⟨rfl, ?_⟩, ?_⟩
        · rw [← hfound, List.splitOn_eq_singleton hmem]
          rfl
        · rw [hleft, left, if_pos rfl]
          omega
  · exact .inr ⟨0, 0, rfl, rfl, Nat.zero_le _, by norm_num, rfl⟩
  · exact hturns

/-! ## The files -/

/-- The addresses of the nodes, by partition. -/
def addresses (text : Bytes) : List (List Bytes) := (lines text).tail.map (·.splitOn comma)

/-- Enough turns for every loop over a file. -/
def Enough (text : Bytes) (turns : ℕ) : Prop :=
  (lines text).length < turns ∧ ∀ line ∈ lines text, line.length + 1 < turns

theorem enough_of_le {text : Bytes} {turns : ℕ} (h : text.length + 2 ≤ turns) :
    Enough text turns := by
  constructor
  · have hlength := length_lines_le text
    omega
  · intro line hline
    have hlength := length_le_of_mem_lines hline
    omega

/-- The loop over the lines adds a partition for each. -/
theorem readLoop_eq {scan : Bytes → Except Abort (List MasterNodeView)}
    {nodesOf : Bytes → List MasterNodeView} {turns : ℕ} {stream : InStream}
    (hscan : ∀ line ∈ stream.unread, scan line = .ok (nodesOf line))
    (hturns : stream.unread.length < turns) (found : List MasterPartitionView) :
    (loop .looping (readTurn scan) turns (stream, found)).map Prod.snd =
      .ok (found ++ stream.unread.map fun line ↦ { nodes := nodesOf line }) := by
  suffices htotal : ∃ s, loop .looping (readTurn scan) turns (stream, found) = .ok s ∧
      s.2 = found ++ stream.unread.map fun line ↦ { nodes := nodesOf line } by
    obtain ⟨s, hloop, hfound⟩ := htotal
    rw [hloop]
    exact congrArg Except.ok hfound
  refine loop_total (I := fun s ↦ (∀ line ∈ s.1.unread, line ∈ stream.unread) ∧
      s.2 ++ s.1.unread.map (fun line ↦ { nodes := nodesOf line }) =
        found ++ stream.unread.map fun line ↦ { nodes := nodesOf line })
    (fun s ↦ s.1.unread.length) ?_ ⟨fun _ h ↦ h, rfl⟩ hturns
  · rintro ⟨s, partitions⟩ ⟨hsub, hfound⟩
    dsimp only at hsub hfound
    unfold readTurn
    dsimp only
    cases hunread : s.unread with
    | nil =>
      obtain ⟨s', hline⟩ := getline_of_nil hunread
      rw [hunread, List.map_nil, List.append_nil] at hfound
      refine .inl ⟨(s', partitions), ?_, hfound⟩
      rw [hline]
    | cons line rest =>
      obtain ⟨s', hline, hrest⟩ := getline_of_cons hunread
      rw [hunread] at hfound hsub
      refine .inr ⟨(s', partitions ++ [{ nodes := nodesOf line }]), ?_, ⟨?_, ?_⟩, ?_⟩
      · rw [hline]
        dsimp only
        rw [hscan line (hsub line List.mem_cons_self)]
        rfl
      · dsimp only
        rw [hrest]
        exact fun other hother ↦ hsub other (List.mem_cons_of_mem line hother)
      · dsimp only
        rw [hrest, ← hfound, List.append_assoc]
        rfl
      · dsimp only
        rw [hrest]
        exact Nat.lt_succ_self _

theorem readTurn_keeps {scan : Bytes → Except Abort (List MasterNodeView)}
    {s t : InStream × List MasterPartitionView} :
    (readTurn scan s = .ok (.again t) → s.2 <+: t.2) ∧
      (readTurn scan s = .ok (.done t) → s.2 <+: t.2) := by
  unfold readTurn
  split
  · refine ⟨fun h ↦ (by cases h), fun h ↦ ?_⟩
    obtain rfl := Turn.done.inj (Except.ok.inj h)
    exact List.prefix_rfl
  · next stream line hline =>
    cases scan line with
    | error e => exact ⟨fun h ↦ (by cases h), fun h ↦ (by cases h)⟩
    | ok nodes =>
      refine ⟨fun h ↦ ?_, fun h ↦ (by cases h)⟩
      obtain rfl := Turn.again.inj (Except.ok.inj h)
      exact List.prefix_append _ _

/-- If it ends, the first line has been read. -/
theorem readLoop_first {scan : Bytes → Except Abort (List MasterNodeView)} {turns : ℕ}
    {stream : InStream} {line : Bytes} {rest : List Bytes} (hunread : stream.unread = line :: rest)
    {s : InStream × List MasterPartitionView}
    (h : loop .looping (readTurn scan) turns (stream, []) = .ok s) :
    ∃ nodes more, scan line = .ok nodes ∧ s.2 = { nodes := nodes } :: more := by
  obtain ⟨stream', hline, -⟩ := getline_of_cons hunread
  cases turns with
  | zero => cases h
  | succ turns =>
    rw [loop, readTurn, hline] at h
    dsimp only at h
    cases hscan : scan line with
    | error e =>
      rw [hscan] at h
      cases h
    | ok nodes =>
      rw [hscan] at h
      have hbegins : [{ nodes := nodes }] <+: s.2 := by
        refine loop_partial (I := fun s ↦ [{ nodes := nodes }] <+: s.2)
          (Q := fun s ↦ [{ nodes := nodes }] <+: s.2) ?_ ?_ List.prefix_rfl h
        · exact fun s t hs hturn ↦ hs.trans (readTurn_keeps.1 hturn)
        · exact fun s t hs hturn ↦ hs.trans (readTurn_keeps.2 hturn)
      obtain ⟨more, hmore⟩ := hbegins
      exact ⟨nodes, more, rfl, hmore.symm⟩

/-- The coordinator's loop. -/
theorem partitionLoop_eq {turns : ℕ} {stream : InStream}
    (hshort : ∀ line ∈ stream.unread, line.length < 2 ^ 31 ∧ line.length + 1 < turns)
    (hturns : stream.unread.length < turns) (found : List MasterPartitionView) :
    (loop .looping (partitionTurn turns) turns (stream, found)).map Prod.snd =
      .ok (found ++ stream.unread.map fun line ↦ initialPartition (line.splitOn comma)) :=
  @readLoop_eq (scanLine makeNode turns) _ turns stream
    (fun line hline ↦ scanLine_eq makeNode (hshort line hline).1 (hshort line hline).2) hturns found

theorem coordinatorMain_eq {text : Bytes} {turns : ℕ} {addM : Bytes} {rest : List Bytes}
    (hlines : lines text = addM :: rest) (hshort : ∀ line ∈ lines text, line.length < 2 ^ 31)
    (hturns : Enough text turns) :
    coordinatorMain turns (some text) =
      .ok { addr := addM, partitions := (addresses text).map initialPartition } := by
  obtain ⟨stream, hline, hrest⟩ := getline_of_cons (s := { rest := text }) hlines
  have hsub : ∀ line ∈ rest, line ∈ lines text := by
    rw [hlines]
    exact fun line hline ↦ List.mem_cons_of_mem addM hline
  have hlength := hturns.1
  rw [hlines] at hlength
  have hloop : (loop .looping (partitionTurn turns) turns (stream, [])).map Prod.snd =
      .ok ([] ++ stream.unread.map fun line ↦ initialPartition (line.splitOn comma)) := by
    apply partitionLoop_eq
    · rw [hrest]
      exact fun line h ↦ ⟨hshort line (hsub line h), hturns.2 line (hsub line h)⟩
    · rw [hrest]
      exact (Nat.lt_succ_self _).trans hlength
  unfold coordinatorMain
  dsimp only
  rw [hline]
  dsimp only
  cases hresult : loop Abort.looping (partitionTurn turns) turns (stream, []) with
  | error e =>
    rw [hresult] at hloop
    cases hloop
  | ok s =>
    rw [hresult, hrest] at hloop
    change (Except.ok { addr := addM, partitions := s.2 } : Except Abort KVMaster) = _
    rw [Except.ok.inj hloop, addresses, hlines, List.map_map]
    rfl

theorem unread_skipLine (n : ℕ) (stream : InStream) :
    (skipLine^[n] stream).unread = stream.unread.drop n := by
  induction n generalizing stream with
  | zero => rfl
  | succ n ih =>
    rw [Function.iterate_succ_apply, ih, skipLine, (getline_unread stream).2, List.drop_tail]

/-- What the checks of a storage node let pass. -/
theorem kvServerMain_accepts {text lineArg nodeArg : Bytes} {p i : ℤ} {turns : ℕ}
    (hshort : ∀ line ∈ lines text, line.length < 2 ^ 31) (hturns : Enough text turns)
    (hp : stoi lineArg = .ok p) (hi : stoi nodeArg = .ok i)
    (haccepts : ∀ message,
      kvServerMain turns (some text) lineArg nodeArg ≠ .error (.exit message)) :
    ∃ addM rest line, lines text = addM :: rest ∧ 1 ≤ p ∧ rest[(p - 1).toNat]? = some line ∧
      0 ≤ i ∧ i.toNat < (line.splitOn comma).length ∧
      kvServerMain turns (some text) lineArg nodeArg = .ok {
        view := {
          addr := (line.splitOn comma).getD i.toNat []
          peerAddrs := (line.splitOn comma).eraseIdx i.toNat }
        partitionIdx := ((-1 + p) % 2 ^ 32).toNat
        masterAddr := addM } := by
  have hrun : ∀ result, kvServerMain turns (some text) lineArg nodeArg = result →
      kvServerMain turns (some text) lineArg nodeArg = result := fun _ h ↦ h
  conv at hrun in kvServerMain _ _ _ _ = _ => unfold kvServerMain
  simp only [hp, hi, ofStd, Except.mapError, bind, Except.bind] at hrun
  by_cases hline : 1 ≤ p
  · rw [if_neg (not_not.mpr hline)] at hrun
    cases hlines : lines text with
    | nil =>
      obtain ⟨stream, hget⟩ := getline_of_nil (s := { rest := text }) hlines
      rw [hget] at hrun
      exact absurd (hrun _ rfl) (haccepts _)
    | cons addM rest =>
      obtain ⟨stream, hget, hrest⟩ := getline_of_cons (s := { rest := text }) hlines
      rw [hget] at hrun
      dsimp only at hrun
      cases hskip : (skipLine^[(p - 1).toNat] stream).unread with
      | nil =>
        obtain ⟨stream', hget'⟩ := getline_of_nil hskip
        rw [hget'] at hrun
        exact absurd (hrun _ rfl) (haccepts _)
      | cons line more =>
        obtain ⟨stream', hget', -⟩ := getline_of_cons hskip
        rw [unread_skipLine, hrest] at hskip
        have hget? : rest[(p - 1).toNat]? = some line := by
          rw [← List.head?_drop, hskip]
          rfl
        have hmem : line ∈ lines text := by
          rw [hlines]
          exact List.mem_cons_of_mem _ (List.mem_of_getElem? hget?)
        rw [hget'] at hrun
        dsimp only at hrun
        rw [scanLine_eq id (hshort line hmem) (hturns.2 line hmem), List.map_id] at hrun
        dsimp only at hrun
        by_cases hnode : i < sizeToInt (line.splitOn comma).length ∧ ¬i < 0
        · rw [if_neg (not_not.mpr hnode)] at hrun
          have hle := sizeToInt_le (line.splitOn comma).length
          exact ⟨addM, rest, line, rfl, hline, hget?, by omega, by omega, hrun _ rfl⟩
        · rw [if_pos hnode] at hrun
          exact absurd (hrun _ rfl) (haccepts _)
  · rw [if_pos hline] at hrun
    exact absurd (hrun _ rfl) (haccepts _)

/-! ## Indices -/

/-- An accepted `PrimaryUpdate` with the address of any node means this node to node `i`. -/
def Understands (addrs : List Bytes) (i : ℕ) (view : NodeView) : Prop :=
  ∀ k addr, addrs[k]? = some addr → (primaryUpdate view addr).2.code = .ok →
    ((primaryUpdate view addr).1.primaryIdx = mStatus ↔ k = i) ∧
      (k ≠ i → peerAddr? (primaryUpdate view addr).1 = some addr)

theorem primaryUpdate_of_ok {view : NodeView} {addr : Bytes}
    (h : (primaryUpdate view addr).2.code = .ok) :
    (primaryUpdate view addr).1 = renewIdxForPm view addr := by
  unfold primaryUpdate at h ⊢
  split
  · rfl
  · next hserv =>
    rw [if_neg hserv] at h
    cases h

theorem understands {addrs : List Bytes} (hdistinct : addrs.Nodup) {i : ℕ} {view : NodeView}
    (hself : addrs[i]? = some view.addr) (hpeers : view.peerAddrs = addrs.eraseIdx i) :
    Understands addrs i view := by
  intro k addr hk hok
  have hiff : addr = view.addr ↔ k = i := by
    constructor
    · intro heq
      have hlt := (List.getElem?_eq_some_iff.mp hk).1
      exact (List.getElem?_inj hlt hdistinct).mp (by rw [hk, hself, heq])
    · rintro rfl
      exact Option.some.inj (hk.symm.trans hself)
  rw [primaryUpdate_of_ok hok, renewIdxForPm_eq_mStatus_iff]
  refine ⟨hiff, fun hne ↦ ?_⟩
  have hpeer : addr ∈ view.peerAddrs := by
    rw [hpeers, List.mem_eraseIdx_iff_getElem?]
    exact ⟨k, hne, hk⟩
  exact (renewIdxForPm_peerAddr (fun heq ↦ hne (hiff.mp heq)) hpeer).1

def nodeAddrs (partition : MasterPartitionView) : List Bytes :=
  partition.nodes.map MasterNodeView.addr

theorem nodeAddrs_initialPartition (addrs : List Bytes) :
    nodeAddrs (initialPartition addrs) = addrs := (initialPartition_wellFormed addrs).addrs_eq

/-- The addresses of a client's partitions. -/
def clientAddrs (partitions : List ClientPartition) : List (List Bytes) :=
  partitions.map fun partition ↦ partition.nodes.map Node.addr

theorem clientAddrs_getNodeView (partitions : List MasterPartitionView) :
    (renewPart (.ok (getNodeView partitions))).map clientAddrs = .ok (partitions.map nodeAddrs) := by
  simp only [renewPart, Except.map, getNodeView, clientAddrs, List.map_map, Function.comp_def]
  rfl

theorem afterRounds_addrs (config : Config) (past : List Round) :
    (afterRounds config past).map nodeAddrs = config.partitions := by
  induction past using List.reverseRecOn with
  | nil =>
    rw [afterRounds, List.foldl_nil, initial, List.map_map]
    exact (List.map_congr_left fun addrs _ ↦ nodeAddrs_initialPartition addrs).trans
      (List.map_id _)
  | append_singleton past round ih =>
    rw [afterRounds_concat, ← ih]
    refine List.ext_getElem? fun pId ↦ ?_
    rw [List.getElem?_map, doHealthcheck_getElem?, List.getElem?_map, Option.map_map]
    refine congrArg (fun f ↦ Option.map f _) (funext fun partition ↦ ?_)
    rw [Function.comp_apply, nodeAddrs, roundPartition, renewPartition_nodes, checkNodes_addrs,
      nodeAddrs]

/-! ## Agreement -/

/-- The programs mean the same nodes: node `i` of line `p` runs `server`, `master` is the
coordinator. -/
structure Agreement (text : Bytes) (p i : ℤ) (master : KVMaster) (server : StorageNode) : Prop where
  masterAddr : server.masterAddr = master.addr
  index : (server.partitionIdx : ℤ) = p - 1
  valid : server.partitionIdx < master.partitions.length
  node : 0 ≤ i
  self : ∃ partition, master.partitions[server.partitionIdx]? = some partition ∧
    (nodeAddrs partition)[i.toNat]? = some server.view.addr ∧
    server.view.peerAddrs = (nodeAddrs partition).eraseIdx i.toNat ∧
    ((nodeAddrs partition).Nodup → ∀ view, view.addr = server.view.addr →
      view.peerAddrs = server.view.peerAddrs → Understands (nodeAddrs partition) i.toNat view)
  clients : ∃ config : Config, config.partitions = addresses text ∧
    master.partitions = initial config ∧
    ∀ past, (renewPart (.ok (getNodeView (afterRounds config past)))).map clientAddrs =
      .ok (addresses text)

/-- What the election starts from. -/
def configOf (text : Bytes) (h : addresses text ≠ []) : Config where
  partitions := addresses text
  partitions_ne := h
  nodes_ne nodes hnodes := by
    obtain ⟨line, -, rfl⟩ := List.mem_map.mp hnodes
    exact List.splitOn_ne_nil comma line

/-- A storage node that passes its checks agrees with the coordinator and the clients. -/
theorem configuration_agrees {text lineArg nodeArg : Bytes} {p i : ℤ} {turns : ℕ}
    (hshort : ∀ line ∈ lines text, line.length < 2 ^ 31) (hturns : text.length + 2 ≤ turns)
    (hp : stoi lineArg = .ok p) (hi : stoi nodeArg = .ok i)
    (haccepts : ∀ message,
      kvServerMain turns (some text) lineArg nodeArg ≠ .error (.exit message)) :
    (∀ line ∈ lines text, scanLine makeNode turns line = .ok ((line.splitOn comma).map makeNode) ∧
      scanLine id turns line = .ok (line.splitOn comma)) ∧
    ∃ master server, coordinatorMain turns (some text) = .ok master ∧
      kvServerMain turns (some text) lineArg nodeArg = .ok server ∧
      Agreement text p i master server := by
  have henough := enough_of_le hturns
  constructor
  · intro line hline
    refine ⟨scanLine_eq makeNode (hshort line hline) (henough.2 line hline), ?_⟩
    rw [scanLine_eq id (hshort line hline) (henough.2 line hline), List.map_id]
  · obtain ⟨addM, rest, line, hlines, hone, hline, hnode, hlt, hserver⟩ :=
      kvServerMain_accepts hshort henough hp hi haccepts
    have hmaster := coordinatorMain_eq hlines hshort henough
    have hidx : ((-1 + p) % 2 ^ 32).toNat = (p - 1).toNat := by
      have hfits := stoi_lt hp
      omega
    have hget : (addresses text)[(p - 1).toNat]? = some (line.splitOn comma) := by
      rw [addresses, hlines, List.tail_cons, List.getElem?_map, hline]
      rfl
    have hself : (line.splitOn comma)[i.toNat]? =
        some ((line.splitOn comma).getD i.toNat []) := by
      rw [List.getD_eq_getElem?_getD, List.getElem?_eq_getElem hlt]
      rfl
    have hne : addresses text ≠ [] := by
      intro hnil
      rw [hnil] at hget
      cases hget
    refine ⟨_, _, hmaster, hserver, ?_⟩
    constructor
    · rfl
    · dsimp only
      omega
    · dsimp only
      rw [hidx, List.length_map]
      exact (List.getElem?_eq_some_iff.mp hget).1
    · exact hnode
    · dsimp only
      refine ⟨initialPartition (line.splitOn comma), ?_, ?_⟩
      · rw [hidx, List.getElem?_map, hget]
        rfl
      · rw [nodeAddrs_initialPartition]
        refine ⟨hself, rfl, fun hdistinct view haddr hpeers ↦ ?_⟩
        exact understands hdistinct (haddr ▸ hself) hpeers
    · refine ⟨configOf text hne, rfl, rfl, fun past ↦ ?_⟩
      rw [clientAddrs_getNodeView, afterRounds_addrs]
      rfl

/-- Two partitions, the second node of the second line. -/
def sampleConfig : Bytes := lit "m:50\na:60,b:61,c:62\na:70,b:71,c:72"

theorem configuration_agrees_sample :
    ∃ master server, coordinatorMain 60 (some sampleConfig) = .ok master ∧
      kvServerMain 60 (some sampleConfig) (lit "2") (lit "1") = .ok server ∧
      Agreement sampleConfig 2 1 master server ∧ server.view.addr = lit "b:71" := by
  have hcheck : (kvServerMain 60 (some sampleConfig) (lit "2") (lit "1")).toOption.map
      (fun server ↦ server.view.addr) = some (lit "b:71") := by decide +kernel
  have hshort : ∀ line ∈ lines sampleConfig, line.length < 2 ^ 31 := by
    intro line hline
    have hlength := length_le_of_mem_lines hline
    have htext : sampleConfig.length = 34 := by decide +kernel
    omega
  have haccepts : ∀ message,
      kvServerMain 60 (some sampleConfig) (lit "2") (lit "1") ≠ .error (.exit message) := by
    intro message hexit
    rw [hexit] at hcheck
    cases hcheck
  obtain ⟨-, master, server, hmaster, hserver, hagrees⟩ := configuration_agrees (p := 2) (i := 1)
    hshort (by decide +kernel) rfl rfl haccepts
  rw [hserver] at hcheck
  exact ⟨master, server, hmaster, hserver, hagrees, Option.some.inj hcheck⟩

end PennCloud.Coordinator.Configuration
