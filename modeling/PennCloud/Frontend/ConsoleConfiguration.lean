import PennCloud.Coordinator.Configuration

/-!
# The configuration at the admin console

The admin console reads the same file as the coordinator and should number the same nodes. Its loop over
a line ends where no further comma is found, without the text behind the last one: the last node of
every partition is missing, and all later numbers are moved.
-/

open PennCloud.Library.CppString PennCloud.Library.FileStream PennCloud.Library.FileStream.InStream
open PennCloud.Library.Loops PennCloud.Library.TextSearch
open PennCloud.KV.TabletCells PennCloud.Coordinator.Election PennCloud.Coordinator.Configuration

namespace PennCloud.Frontend.ConsoleConfiguration

/-! ## The console -/

structure LineScan where
  i : ℕ := 0
  nodes : List MasterNodeView := []

/-- One turn of the loop over a line, in `size_t`. -/
def lineTurn (line : Bytes) (s : LineScan) : Except Abort (Turn LineScan) :=
  let j := findFrom line comma s.i
  if j = npos then
    .ok (.done s)
  else do
    let address ← ofStd (substr line s.i (j - s.i))
    return .again { i := j + 1, nodes := s.nodes ++ [makeNode address] }

def consoleLine (turns : ℕ) (line : Bytes) : Except Abort (List MasterNodeView) :=
  (loop .looping (lineTurn line) turns {}).map LineScan.nodes

/-- `main` of the admin console up to its client; `none` is a file that does not open. -/
def adminConsoleMain (turns : ℕ) (file : Option Bytes) : Except Abort KVMaster :=
  match file with
  | none => .error (.exit "Could not open file: %s\n")
  | some text =>
    match ({ rest := text } : InStream).getline with
    | (_, none) => .error (.exit "Config file should have KV master addr on first line\n")
    | (stream, some masterAddr) => do
      let (_, partitions) ← loop .looping (readTurn (consoleLine turns)) turns (stream, [])
      return { addr := masterAddr, partitions := partitions }

/-- `backend_ports[idx] = node.addr` and the next number. -/
def addPort (s : List (ℕ × Bytes) × ℕ) (node : MasterNodeView) : List (ℕ × Bytes) × ℕ :=
  (s.1 ++ [(s.2, node.addr)], s.2 + 1)

/-- The map is empty before. -/
def initBackendPorts (partitions : List MasterPartitionView) : List (ℕ × Bytes) :=
  (partitions.foldl (fun s partition ↦ partition.nodes.foldl addPort s) ([], 0)).1

/-- The numbers go through the nodes of all partitions. -/
theorem initBackendPorts_eq (partitions : List MasterPartitionView) :
    initBackendPorts partitions =
      (partitions.flatMap MasterPartitionView.nodes).mapIdx fun idx node ↦ (idx, node.addr) := by
  have hnodes : ∀ nodes : List MasterNodeView, nodes.foldl addPort ([], 0) =
      (nodes.mapIdx (fun idx node ↦ (idx, node.addr)), nodes.length) := by
    intro nodes
    induction nodes using List.reverseRecOn with
    | nil => rfl
    | append_singleton nodes node ih =>
      rw [List.foldl_append, ih, List.mapIdx_concat, List.length_append]
      rfl
  rw [initBackendPorts, ← List.foldl_flatMap, hnodes]

/-! ## A line at the console -/

theorem splitOn_dropLast_of_not_mem {text : Bytes} (h : comma ∉ text) :
    (text.splitOn comma).dropLast = [] := by
  rw [List.splitOn_eq_singleton h]
  rfl

theorem splitOn_dropLast_append {piece : Bytes} (h : comma ∉ piece) (rest : Bytes) :
    ((piece ++ comma :: rest).splitOn comma).dropLast =
      piece :: (rest.splitOn comma).dropLast := by
  rw [List.splitOn_append_cons_self_of_not_mem h,
    List.dropLast_cons_of_ne_nil (List.splitOn_ne_nil comma rest)]

theorem lineTurn_comma {line piece rest : Bytes} {s : LineScan} (hle : s.i ≤ line.length)
    (hshort : line.length < npos) (hdrop : line.drop s.i = piece ++ comma :: rest)
    (hpiece : comma ∉ piece) :
    lineTurn line s = .ok (.again {
      i := s.i + piece.length + 1
      nodes := s.nodes ++ [makeNode piece] }) := by
  have hlength := length_of_drop hdrop
  have hsubstr : substr line s.i piece.length = .ok piece := by
    rw [substr, if_neg (Nat.not_lt.mpr hle), hdrop, List.take_left]
  rw [lineTurn, findFrom_of_drop hdrop hpiece, if_neg (by omega), Nat.add_sub_cancel_left, hsubstr]
  rfl

/-- The console finds the nodes that a comma follows. -/
theorem consoleLine_eq {line : Bytes} (hshort : line.length < npos) {turns : ℕ}
    (hturns : line.length < turns) :
    consoleLine turns line = .ok ((line.splitOn comma).dropLast.map makeNode) := by
  suffices htotal : ∃ s, loop .looping (lineTurn line) turns {} = .ok s ∧
      s.nodes = (line.splitOn comma).dropLast.map makeNode by
    obtain ⟨s, hloop, hnodes⟩ := htotal
    rw [consoleLine, hloop]
    exact congrArg Except.ok hnodes
  refine loop_total (I := fun s ↦ s.i ≤ line.length ∧
    s.nodes ++ ((line.drop s.i).splitOn comma).dropLast.map makeNode =
      (line.splitOn comma).dropLast.map makeNode) (fun s ↦ line.length - s.i) ?_
    ⟨Nat.zero_le _, rfl⟩ hturns
  rintro s ⟨hle, hnodes⟩
  by_cases hmem : comma ∈ line.drop s.i
  · obtain ⟨piece, rest, hdrop, hpiece⟩ := List.eq_append_cons_of_mem hmem
    have hlength := length_of_drop hdrop
    refine .inr ⟨_, lineTurn_comma hle hshort hdrop hpiece, ⟨?_, ?_⟩, ?_⟩
    · dsimp only
      omega
    · dsimp only
      rw [drop_behind hdrop, ← hnodes, hdrop, splitOn_dropLast_append hpiece, List.map_cons,
        List.append_assoc]
      rfl
    · dsimp only
      omega
  · refine .inl ⟨s, ?_, ?_⟩
    · rw [lineTurn, findFrom_of_not_mem hmem]
      rfl
    · rw [← hnodes, splitOn_dropLast_of_not_mem hmem, List.map_nil, List.append_nil]

/-! ## The same line at the coordinator -/

theorem makeNode_inj {a b : Bytes} (h : makeNode a = makeNode b) : a = b :=
  congrArg MasterNodeView.addr h

/-- What a turn of the coordinator's loop does if it does not throw. -/
theorem scanTurn_cases {line : Bytes} {s : Scan MasterNodeView} {turn : Turn (Scan MasterNodeView)}
    (h : scanTurn makeNode line s = .ok turn) :
    intToSize s.y = npos ∧ turn = .done s ∨
      ∃ y outStr, y = sizeToInt (findFrom line comma (intToSize s.x)) ∧
        substr line (intToSize s.x) (intToSize (if intToSize y = npos then y else y - s.x)) =
          .ok outStr ∧
        turn = .again { x := y + 1, y := y, found := s.found ++ [makeNode outStr] } := by
  unfold scanTurn at h
  split at h
  · next hend => exact .inl ⟨hend, (Except.ok.inj h).symm⟩
  · dsimp only at h
    cases hsubstr : substr line (intToSize s.x) (intToSize
        (if intToSize (sizeToInt (findFrom line comma (intToSize s.x))) = npos then
          sizeToInt (findFrom line comma (intToSize s.x))
        else sizeToInt (findFrom line comma (intToSize s.x)) - s.x)) with
    | error e =>
      rw [hsubstr] at h
      cases h
    | ok outStr =>
      rw [hsubstr] at h
      exact .inr ⟨_, outStr, rfl, hsubstr, (Except.ok.inj h).symm⟩

/-- A position of 2 ^ 31 or more does not survive as an `int`: the length of the piece is wrong. -/
theorem intToSize_len_ne {x p : ℕ} (hxp : x ≤ p) (hlong : 2 ^ 31 ≤ p) (hp : p < 2 ^ 63) :
    intToSize (if intToSize (sizeToInt p) = npos then sizeToInt p else sizeToInt p - x) ≠ p - x := by
  obtain ⟨k, hk⟩ := exists_sizeToInt_eq p
  have hrange := sizeToInt_range p
  rw [hk] at hrange
  rw [hk]
  intro hlen
  split at hlen
  · next hnpos =>
    have hhuge := hnpos.symm.trans hlen
    unfold npos at hhuge
    omega
  · unfold intToSize at hlen
    omega

/-- Either all nodes so far are those of the console, and the text behind them is left, or one is not. -/
inductive Compared (line : Bytes) (s : Scan MasterNodeView) : Prop
  | same (x y : ℕ) (hx : s.x = x) (hy : s.y = y) (hle : x ≤ line.length) (hlt : y < 2 ^ 31)
      (hfound : s.found ++ ((line.drop x).splitOn comma).dropLast.map makeNode =
        (line.splitOn comma).dropLast.map makeNode)
  | other (hfound : ¬s.found <+: (line.splitOn comma).dropLast.map makeNode)

theorem Compared.again {line : Bytes} (hshort : line.length < 2 ^ 63) {s t : Scan MasterNodeView}
    (h : Compared line s) (hturn : scanTurn makeNode line s = .ok (.again t)) :
    Compared line t := by
  obtain ⟨-, hdone⟩ | ⟨y', outStr, hy', hsubstr, hagain⟩ := scanTurn_cases hturn
  · cases hdone
  obtain rfl := Turn.again.inj hagain
  cases h with
  | other hfound => exact .other fun hprefix ↦ hfound ((List.prefix_append _ _).trans hprefix)
  | same x y hx hy hle hlt hfound =>
    rw [hx, intToSize_natCast (by omega)] at hy' hsubstr
    by_cases hmem : comma ∈ line.drop x
    · obtain ⟨piece, rest, hdrop, hpiece⟩ := List.eq_append_cons_of_mem hmem
      have hlength := length_of_drop hdrop
      rw [findFrom_of_drop hdrop hpiece] at hy'
      rw [hdrop, splitOn_dropLast_append hpiece, List.map_cons] at hfound
      rw [substr, if_neg (Nat.not_lt.mpr hle)] at hsubstr
      obtain rfl := Except.ok.inj hsubstr
      rcases Nat.lt_or_ge (x + piece.length) (2 ^ 31) with hnear | hfar
      · rw [sizeToInt_natCast hnear] at hy'
        have hlen : ((x + piece.length : ℕ) : ℤ) - x = piece.length := by
          rw [Nat.cast_add]
          exact add_sub_cancel_left _ _
        refine .same (x + piece.length + 1) (x + piece.length) (by rw [hy']; rfl) hy' (by omega)
          hnear ?_
        rw [drop_behind hdrop, ← hfound, hy', if_neg (intToSize_ne_npos hnear), hlen,
          intToSize_natCast (by omega), hdrop, List.take_left, List.append_assoc]
        rfl
      · refine .other fun hprefix ↦ ?_
        rw [← hfound, List.prefix_append_right_inj] at hprefix
        have hsame := makeNode_inj (List.cons_prefix_cons.mp hprefix).1
        have hcount := congrArg List.length hsame
        rw [List.length_take, List.length_drop, hlength] at hcount
        have hwrong := intToSize_len_ne (Nat.le_add_right x piece.length) hfar (by omega)
        rw [← hy', Nat.add_sub_cancel_left] at hwrong
        omega
    · refine .other fun hprefix ↦ ?_
      rw [splitOn_dropLast_of_not_mem hmem, List.map_nil, List.append_nil] at hfound
      have hle := hprefix.length_le
      rw [← hfound, List.length_append, List.length_singleton] at hle
      omega

/-- Where the coordinator's loop ends at all, it has not found what the console finds. -/
theorem scanLine_ne_consoleLine {line : Bytes} (hshort : line.length < 2 ^ 63) {turns : ℕ}
    {nodes : List MasterNodeView} (h : scanLine makeNode turns line = .ok nodes) :
    nodes ≠ (line.splitOn comma).dropLast.map makeNode := by
  unfold scanLine at h
  cases hloop : loop Abort.looping (scanTurn makeNode line) turns {} with
  | error e =>
    rw [hloop] at h
    cases h
  | ok s =>
    rw [hloop] at h
    obtain rfl := Except.ok.inj h
    refine loop_partial (I := Compared line)
      (Q := fun s ↦ s.found ≠ (line.splitOn comma).dropLast.map makeNode)
      (fun s t hs hturn ↦ hs.again hshort hturn) ?_ ?_ hloop
    · intro s t hs hturn
      obtain ⟨hend, hdone⟩ | ⟨y', outStr, hy', hsubstr, hagain⟩ := scanTurn_cases hturn
      case inr => cases hagain
      obtain rfl := Turn.done.inj hdone
      cases hs with
      | other hfound => exact fun heq ↦ hfound (heq ▸ List.prefix_rfl)
      | same x y hx hy hle hlt hfound =>
        rw [hy] at hend
        exact absurd hend (intToSize_ne_npos hlt)
    · exact .same 0 0 rfl rfl (Nat.zero_le _) (by norm_num) rfl

/-! ## The file -/

/-- What both programs make of a file with a first line. -/
theorem mains_of_lines {text addM : Bytes} {rest : List Bytes} (hlines : lines text = addM :: rest)
    (turns : ℕ) :
    ∃ stream : InStream, stream.unread = rest ∧
      coordinatorMain turns (some text) =
        (loop .looping (readTurn (scanLine makeNode turns)) turns (stream, [])).map
          (fun s ↦ { addr := addM, partitions := s.2 }) ∧
      adminConsoleMain turns (some text) =
        (loop .looping (readTurn (consoleLine turns)) turns (stream, [])).map
          (fun s ↦ { addr := addM, partitions := s.2 }) := by
  obtain ⟨stream, hline, hrest⟩ := getline_of_cons (s := { rest := text }) hlines
  refine ⟨stream, hrest, ?_, ?_⟩
  · rw [coordinatorMain, hline]
    rfl
  · rw [adminConsoleMain, hline]
    rfl

/-- With these turns both programs build the same partitions, or none, and the numbers of the console go
through the nodes of the coordinator. -/
structure SameCluster (text : Bytes) (turns : ℕ) : Prop where
  partitions : (adminConsoleMain turns (some text)).toOption.map KVMaster.partitions =
    (coordinatorMain turns (some text)).toOption.map KVMaster.partitions
  ports : ∀ console, adminConsoleMain turns (some text) = .ok console →
    initBackendPorts console.partitions =
      (addresses text).flatten.mapIdx fun idx addr ↦ (idx, addr)

/-- Whatever the partitions are, the console and the coordinator build different ones. -/
theorem not_sameCluster {text addM line : Bytes} {rest : List Bytes}
    (hlines : lines text = addM :: line :: rest) (hsize : text.length < 2 ^ 63) {turns : ℕ}
    (hturns : text.length + 2 ≤ turns) : ¬SameCluster text turns := by
  intro h
  obtain ⟨stream, hunread, hcoordinator, hconsole⟩ := mains_of_lines hlines turns
  have henough := enough_of_le hturns
  have hmem : ∀ other ∈ line :: rest, other ∈ lines text := by
    rw [hlines]
    exact fun other hother ↦ List.mem_cons_of_mem addM hother
  have hsmall : ∀ other ∈ line :: rest, other.length < 2 ^ 63 := fun other hother ↦
    lt_of_le_of_lt (length_le_of_mem_lines (hmem other hother)) hsize
  have hread := @readLoop_eq (consoleLine turns)
    (fun line ↦ (line.splitOn comma).dropLast.map makeNode) turns stream (by
      rw [hunread]
      intro other hother
      have hlong := henough.2 other (hmem other hother)
      have hfits := hsmall other hother
      exact consoleLine_eq (by unfold npos; omega) (by omega)) (by
      have hcount := henough.1
      rw [hlines, List.length_cons] at hcount
      rw [hunread]
      omega) []
  rw [hunread] at hread
  have hsame := h.partitions
  rw [hcoordinator, hconsole] at hsame
  cases hloop : loop Abort.looping (readTurn (consoleLine turns)) turns (stream, []) with
  | error e =>
    rw [hloop] at hread
    cases hread
  | ok s =>
    rw [hloop] at hread hsame
    cases hloop' : loop Abort.looping (readTurn (scanLine makeNode turns)) turns (stream, []) with
    | error e =>
      rw [hloop'] at hsame
      cases hsame
    | ok s' =>
      rw [hloop'] at hsame
      obtain ⟨nodes, more, hscan, hs'⟩ := readLoop_first hunread hloop'
      have hpartitions : s.2 = s'.2 := Option.some.inj hsame
      have hfirst := (Except.ok.inj hread).symm.trans (hpartitions.trans hs')
      have hnodes := congrArg MasterPartitionView.nodes (List.cons.inj hfirst).1
      exact scanLine_ne_consoleLine (hsmall line List.mem_cons_self) hscan hnodes.symm

/-- Without a partition both have nothing to number. -/
theorem sameCluster_of_no_partition {text : Bytes} (hnone : (lines text).tail = []) {turns : ℕ}
    (hturns : text.length + 2 ≤ turns) : SameCluster text turns := by
  have hpos : 0 < turns := by omega
  cases hlines : lines text with
  | nil =>
    obtain ⟨stream, hline⟩ := getline_of_nil (s := { rest := text }) hlines
    have hconsole : adminConsoleMain turns (some text) =
        .error (.exit "Config file should have KV master addr on first line\n") := by
      rw [adminConsoleMain, hline]
    constructor
    · rw [hconsole, coordinatorMain, hline]
      rfl
    · intro console hmain
      rw [hconsole] at hmain
      cases hmain
  | cons addM rest =>
    rw [hlines] at hnone
    obtain rfl : rest = [] := hnone
    obtain ⟨stream, hunread, hcoordinator, hconsole⟩ := mains_of_lines hlines turns
    have hempty : ∀ scan : Bytes → Except Abort (List MasterNodeView),
        (loop .looping (readTurn scan) turns (stream, [])).map
            (fun s ↦ { addr := addM, partitions := s.2 : KVMaster }) =
          .ok { addr := addM, partitions := [] } := by
      intro scan
      have hread := @readLoop_eq scan (fun _ ↦ []) turns stream
        (by rw [hunread]; exact fun _ hline ↦ absurd hline List.not_mem_nil)
        (by rw [hunread]; exact hpos) []
      cases hloop : loop Abort.looping (readTurn scan) turns (stream, []) with
      | error e =>
        rw [hloop] at hread
        cases hread
      | ok s =>
        rw [hloop, hunread] at hread
        have hs : s.2 = [] := Except.ok.inj hread
        rw [Except.map, hs]
    rw [hempty] at hcoordinator hconsole
    constructor
    · rw [hconsole, hcoordinator]
    · intro console hmain
      rw [hconsole] at hmain
      obtain rfl := Except.ok.inj hmain
      rw [addresses, hlines]
      rfl

/-- The console numbers the configured nodes exactly when there are none. -/
theorem sameCluster_iff (text : Bytes) (hsize : text.length < 2 ^ 63) (turns : ℕ)
    (hturns : text.length + 2 ≤ turns) : SameCluster text turns ↔ (lines text).tail = [] := by
  constructor
  · intro h
    cases hlines : lines text with
    | nil => rfl
    | cons addM rest =>
      cases rest with
      | nil => rfl
      | cons line rest => exact absurd h (not_sameCluster hlines hsize hturns)
  · exact fun hnone ↦ sameCluster_of_no_partition hnone hturns

/-- A file that names the coordinator only. -/
theorem sameCluster_without_partitions : SameCluster (lit "m:50\n") 10 :=
  (sameCluster_iff (lit "m:50\n") (by decide +kernel) 10 (by decide +kernel)).mpr
    (by decide +kernel)

/-- The console knows only the first of two nodes. -/
theorem console_misses_last_node : ¬SameCluster (lit "m:50\na:60,b:61\n") 30 := by
  intro h
  have hsame := h.partitions
  revert hsame
  decide +kernel

end PennCloud.Frontend.ConsoleConfiguration
