import PennCloud.Webmail.Connections
import PennCloud.Webmail.Framing

/-!
# Clients that go away

A worker should end when its client has gone. The receive loop only acts on a positive result of `recv`:
after the end of the connection or an error it calls `recv` again, for ever. So a worker ends by a
`QUIT` or by a chunk that its buffer has no room for, and both come before the client goes away.
-/

open PennCloud.KV.TabletCells PennCloud.Library.Runs PennCloud.Library.TextSearch
open PennCloud.Library.CBuffer PennCloud.Webmail.MailServer PennCloud.Webmail.Framing

namespace PennCloud.Webmail.Disconnects

/-! ## What is in the buffer -/

/-- The complete lines that a worker finds in a stream; it never looks behind a zero byte. -/
def completeLines (stream : List UInt8) : List Bytes := (cut crlf (content stream)).1

def unfinished (stream : List UInt8) : Bytes := (cut crlf (content stream)).2

/-- The bytes of a stream that stay in `msg`. -/
def pending (stream : List UInt8) : ℕ :=
  (unfinished stream).length + (stream.length - (content stream).length)

/-- A chunk comes that `msg` has no room for. -/
def Overflows (chunks : List (List UInt8)) : Prop :=
  ∃ front chunk after, chunks = front ++ chunk :: after ∧
    maxLen < pending front.flatten + chunk.length

theorem length_content_le (stream : List UInt8) : (content stream).length ≤ stream.length :=
  (List.takeWhile_sublist _).length_le

/-- A chunk with the zero byte behind it, up to its first zero byte. -/
theorem concat_zero_eq (chunk : List UInt8) :
    ∃ behind, chunk ++ [0] = content chunk ++ 0 :: behind := by
  by_cases h : 0 ∈ chunk
  · obtain ⟨front, behind, rfl, hfront⟩ := List.eq_append_cons_of_mem h
    refine ⟨behind ++ [0], ?_⟩
    rw [content, takeWhile_ne_append_cons hfront, List.append_assoc, List.cons_append]
  · refine ⟨[], ?_⟩
    rw [← List.append_nil chunk, content_append h]
    simp [content]

theorem content_eq_self {stream : List UInt8} (h : 0 ∉ stream) : content stream = stream := by
  have hself := content_append h []
  rwa [List.append_nil, show content [] = [] from rfl, List.append_nil] at hself

theorem content_append_of_mem {stream : List UInt8} (h : 0 ∈ stream) (chunk : List UInt8) :
    content (stream ++ chunk) = content stream := by
  obtain ⟨front, behind, rfl, hfront⟩ := List.eq_append_cons_of_mem h
  rw [List.append_assoc, List.cons_append, content, content, takeWhile_ne_append_cons hfront,
    takeWhile_ne_append_cons hfront]

theorem zero_notMem_content (stream : List UInt8) : 0 ∉ content stream := by
  intro hin
  have hne := List.mem_takeWhile_imp hin
  exact of_decide_eq_true hne rfl

theorem zero_notMem_unfinished (stream : List UInt8) : 0 ∉ unfinished stream := by
  intro hin
  apply zero_notMem_content stream
  rw [← flatten_cut crlf_ne_nil (content stream)]
  exact List.mem_append_right _ hin

theorem length_content_lt {stream : List UInt8} (h : 0 ∈ stream) :
    (content stream).length < stream.length := by
  obtain ⟨front, behind, rfl, hfront⟩ := List.eq_append_cons_of_mem h
  rw [content, takeWhile_ne_append_cons hfront, List.length_append, List.length_cons]
  omega

/-- The lines of a stream stay where they are when more bytes come. -/
theorem completeLines_append {stream chunk more : List UInt8}
    (h : content (stream ++ chunk) = content stream ++ more) :
    completeLines (stream ++ chunk) =
      completeLines stream ++ (cut crlf (unfinished stream ++ more)).1 ∧
    unfinished (stream ++ chunk) = (cut crlf (unfinished stream ++ more)).2 := by
  unfold completeLines unfinished
  rw [h, cut_append crlf_ne_nil]
  exact ⟨rfl, rfl⟩

theorem exists_content_append (stream chunk : List UInt8) :
    ∃ more, content (stream ++ chunk) = content stream ++ more := by
  by_cases h : 0 ∈ stream
  · exact ⟨[], by rw [content_append_of_mem h, List.append_nil]⟩
  · exact ⟨content chunk, by rw [content_append h, content_eq_self h]⟩

section

variable {τ : Type} {process : τ → Bytes → τ × Bool}

/-- A worker that has processed the complete lines of a stream and keeps the rest. -/
structure Keeps (process : τ → Bytes → τ × Bool) (start : τ) (w : Worker τ)
    (stream : List UInt8) : Prop where
  size : w.msg.length = maxLen + 1
  fits : pending stream ≤ maxLen
  msgLen : w.msgLen = pending stream
  closed : w.closed = false
  state : w.state = (handOn process start (completeLines stream)).1
  goesOn : (handOn process start (completeLines stream)).2.2 = false
  begins : unfinished stream <+: w.msg
  ends : 0 ∈ stream → Holds w.msg (unfinished stream)

/-- `memcpy` of a chunk: the text goes on up to the first zero byte of the stream. -/
theorem Keeps.stored {start : τ} {w : Worker τ} {stream : List UInt8}
    (h : Keeps process start w stream) {chunk : List UInt8}
    (hfits : pending stream + chunk.length ≤ maxLen) :
    ∃ msg more, store w.msg w.msgLen.toNat (chunk ++ [0]) = some msg ∧
      Holds msg (unfinished stream ++ more) ∧
      content (stream ++ chunk) = content stream ++ more ∧ more.length ≤ chunk.length := by
  have hle := length_content_le stream
  rw [h.msgLen, Int.toNat_natCast]
  by_cases hzero : 0 ∈ stream
  · have hlt := length_content_lt hzero
    have hfits' : pending stream + (chunk ++ [0]).length ≤ w.msg.length := by
      rw [List.length_append, List.length_singleton, h.size]
      omega
    obtain ⟨msg, hstore⟩ : ∃ msg, store w.msg (pending stream) (chunk ++ [0]) = some msg :=
      ⟨_, if_pos hfits'⟩
    refine ⟨msg, [], hstore, ?_, ?_, Nat.zero_le _⟩
    · rw [List.append_nil]
      exact (h.ends hzero).store_behind (by unfold pending; omega) hstore
    · rw [content_append_of_mem hzero, List.append_nil]
  · obtain ⟨behind, hbehind⟩ := concat_zero_eq chunk
    have hpending : pending stream = (unfinished stream).length := by
      rw [pending, content_eq_self hzero, Nat.sub_self, Nat.add_zero]
    have hlen := congrArg List.length hbehind
    rw [List.length_append, List.length_singleton] at hlen
    obtain ⟨msg, hstore, hholds⟩ : ∃ msg, store w.msg (unfinished stream).length
        (content chunk ++ 0 :: behind) = some msg ∧ _ :=
      holds_store_upTo h.begins (zero_notMem_unfinished stream) (zero_notMem_content chunk)
        (by rw [← hlen, h.size]; omega)
    refine ⟨msg, content chunk, by rw [hpending, hbehind]; exact hstore, hholds, ?_,
      length_content_le chunk⟩
    rw [content_append hzero, content_eq_self hzero]

/-- A chunk that fits: either a line among the new ones ends the session, or the worker waits
for more. -/
theorem Keeps.receive {start : τ} {w : Worker τ} {stream : List UInt8}
    (h : Keeps process start w stream) {chunk : List UInt8}
    (hfits : pending stream + chunk.length ≤ maxLen) :
    ∃ w', Framing.receive process w chunk = some w' ∧
      ((handOn process start (completeLines (stream ++ chunk))).2.2 = true ∧ w'.closed = true ∨
        Keeps process start w' (stream ++ chunk)) := by
  obtain ⟨msg, more, hstore, hholds, hcontent, hmore⟩ := h.stored hfits
  have hmsgLen := h.msgLen
  have hsize := h.size
  have hmsg := store_length hstore
  have hunfinished : (unfinished stream).length ≤ pending stream := Nat.le_add_right _ _
  have hlen := length_content_le stream
  have hlen' := length_content_le (stream ++ chunk)
  rw [hcontent, List.length_append, List.length_append] at hlen'
  obtain ⟨w', hrun, hw'⟩ := processLines_upTo process
    (w := { w with msg := msg, msgLen := w.msgLen + chunk.length }) hholds
    (by dsimp only; rw [List.length_append]; push_cast; omega) (by dsimp only; omega) h.closed
    hholds.length_lt
  obtain ⟨hlines, hrest⟩ := completeLines_append hcontent
  have hsplit := handOn_append process start (completeLines stream)
    (cut crlf (unfinished stream ++ more)).1
  rw [if_neg (by rw [h.goesOn]; exact Bool.false_ne_true), ← h.state, ← hlines] at hsplit
  have hclosed : w'.closed = (handOn process start (completeLines (stream ++ chunk))).2.2 := by
    rw [hsplit]
    exact hw'.closed
  refine ⟨w', ?_, ?_⟩
  · rw [receive_eq h.closed (by omega) (by omega) hstore, ← hmsg]
    exact hrun
  · cases hquit : w'.closed with
    | true => exact .inl ⟨hclosed.symm.trans hquit, rfl⟩
    | false =>
      obtain ⟨hholds', hbehind⟩ := hw'.rest hquit
      rw [← hrest] at hholds' hbehind
      have hpending : w'.msgLen = pending (stream ++ chunk) := by
        rw [pending, hcontent, List.length_append, List.length_append]
        rw [List.length_append] at hbehind
        dsimp only at hbehind
        unfold pending at hmsgLen
        push_cast at hbehind hmsgLen ⊢
        omega
      have hle := hw'.msgLen
      refine .inr ⟨hw'.size.trans (hmsg.trans hsize), ?_, hpending, hquit, ?_,
        hclosed.symm.trans hquit, (List.prefix_append _ _).trans hholds'.1, fun _ ↦ hholds'⟩
      · dsimp only at hle
        omega
      · rw [hsplit]
        exact hw'.state

/-- A line ends the session, or a chunk is too long. -/
def Leaves (process : τ → Bytes → τ × Bool) (start : τ) (chunks : List (List UInt8)) : Prop :=
  (handOn process start (completeLines chunks.flatten)).2.2 = true ∨ Overflows chunks

theorem Leaves.append {start : τ} {chunks : List (List UInt8)} (h : Leaves process start chunks)
    (more : List (List UInt8)) : Leaves process start (chunks ++ more) := by
  rcases h with hquit | ⟨front, chunk, after, rfl, hlong⟩
  · obtain ⟨text, htext⟩ := exists_content_append chunks.flatten more.flatten
    refine .inl ?_
    rw [List.flatten_append, (completeLines_append htext).1, handOn_append, if_pos hquit]
    exact hquit
  · exact .inr ⟨front, chunk, after ++ more, by rw [List.append_assoc, List.cons_append], hlong⟩

theorem keeps_start (garbage : Fin (maxLen + 1) → UInt8) (start : τ) :
    Keeps process start (startWorker garbage start) [] where
  size := (framed_start garbage start : Framed process start _ []).size
  fits := Nat.zero_le _
  msgLen := rfl
  closed := rfl
  state := rfl
  goesOn := rfl
  begins := List.nil_prefix
  ends hin := absurd hin List.not_mem_nil

theorem not_overflows_nil : ¬Overflows [] := by
  rintro ⟨front, chunk, after, hchunks, -⟩
  simp at hchunks

theorem overflows_concat {chunks : List (List UInt8)} {chunk : List UInt8}
    (hfits : pending chunks.flatten + chunk.length ≤ maxLen) (h : ¬Overflows chunks) :
    ¬Overflows (chunks ++ [chunk]) := by
  rintro ⟨front, long, after, hchunks, hlong⟩
  rcases List.eq_nil_or_concat after with rfl | ⟨rest, last, rfl⟩
  · obtain ⟨rfl, hlast⟩ := List.append_inj' hchunks rfl
    obtain rfl := (List.cons.inj hlast).1
    omega
  · apply h
    refine ⟨front, long, rest, ?_, hlong⟩
    rw [List.concat_eq_append, ← List.cons_append, ← List.append_assoc] at hchunks
    exact List.append_inj_left' hchunks rfl

variable (process) in
/-- After any chunks the worker has returned, for one of the two reasons, or waits for more. -/
theorem receiveAll (start : τ) (garbage : Fin (maxLen + 1) → UInt8)
    (chunks : List (List UInt8)) :
    ∃ w, chunks.foldlM (receive process) (startWorker garbage start) = some w ∧
      (w.closed = true ∧ Leaves process start chunks ∨
        Keeps process start w chunks.flatten ∧ ¬Leaves process start chunks) := by
  induction chunks using List.reverseRecOn with
  | nil =>
    refine ⟨_, rfl, .inr ⟨keeps_start garbage start, ?_⟩⟩
    rintro (hquit | hlong)
    · exact Bool.false_ne_true hquit
    · exact not_overflows_nil hlong
  | append_singleton chunks chunk ih =>
    obtain ⟨w, hrun, hw⟩ := ih
    have hnext : ∀ w', Framing.receive process w chunk = some w' →
        (chunks ++ [chunk]).foldlM (receive process) (startWorker garbage start) = some w' := by
      intro w' hreceive
      rw [List.foldlM_append, hrun]
      simpa using hreceive
    rcases hw with ⟨hclosed, hleaves⟩ | ⟨hkeeps, hstays⟩
    · exact ⟨w, hnext w (if_pos hclosed), .inl ⟨hclosed, hleaves.append [chunk]⟩⟩
    · rw [Leaves, not_or] at hstays
      by_cases hfits : pending chunks.flatten + chunk.length ≤ maxLen
      · obtain ⟨w', hreceive, hw'⟩ := hkeeps.receive hfits
        refine ⟨w', hnext w' hreceive, ?_⟩
        have hflatten : (chunks ++ [chunk]).flatten = chunks.flatten ++ chunk := by simp
        rw [Leaves, hflatten]
        rcases hw' with ⟨hquit, hclosed⟩ | hkeeps'
        · exact .inl ⟨hclosed, .inl hquit⟩
        · refine .inr ⟨hkeeps', ?_⟩
          rintro (hquit | hlong)
          · exact Bool.false_ne_true (hkeeps'.goesOn.symm.trans hquit)
          · exact overflows_concat hfits hstays.2 hlong
      · have hmsgLen := hkeeps.msgLen
        refine ⟨{ w with closed := true }, hnext _ ?_, .inl ⟨rfl, .inr ?_⟩⟩
        · rw [Framing.receive, if_neg (by rw [hkeeps.closed]; exact Bool.false_ne_true),
            if_pos (by omega)]
        · exact ⟨chunks, chunk, [], rfl, by omega⟩

end

/-! ## The receive loop -/

/-- What `recv` returns. -/
inductive Recv
  | bytes (chunk : List UInt8)
  /-- The peer has closed the connection. -/
  | closed
  | error
  deriving DecidableEq

def Recv.bytes? : Recv → Option (List UInt8)
  | bytes chunk => some chunk
  | closed => none
  | error => none

/-- A worker and the globals in which it is registered. -/
structure Serving where
  worker : Worker Conversation
  server : Connections.Server

section

variable (site : Site) (around : ℕ → Surroundings) (i : ℕ) (commFd : ℤ)

/-- One iteration. Only a positive result is looked at; the worker takes itself out of the table
where it returns. -/
def iteration (s : Serving) : Recv → Option Serving
  | .bytes chunk =>
    if s.worker.closed then some s
    else do
      let worker ← receive (serve site around) s.worker chunk
      if worker.closed then
        some { worker := worker, server := s.server.deregister i commFd .gone }
      else some { s with worker := worker }
  | .closed => some s
  | .error => some s

/-- The state after this many calls of `recv`. -/
def afterCalls (s : Serving) (results : ℕ → Recv) (n : ℕ) : Option Serving :=
  ((List.range n).map results).foldlM (iteration site around i commFd) s

/-- The worker returns after finitely many calls, and its slot is free again. -/
def Ends (s : Serving) (results : ℕ → Recv) : Prop :=
  ∃ n s', afterCalls site around i commFd s results n = some s' ∧ s'.worker.closed = true ∧
    s'.server.activeConnections = s.server.activeConnections.replace commFd (-1) ∧
    s'.server.connCnt = s.server.connCnt - 1

end

/-- The bytes of the first calls. -/
def received (results : ℕ → Recv) (n : ℕ) : List (List UInt8) :=
  ((List.range n).map results).filterMap Recv.bytes?

def start (garbage : Fin (maxLen + 1) → UInt8) (server : Connections.Server) : Serving where
  worker := startWorker garbage {}
  server := server

theorem received_succ (results : ℕ → Recv) (n : ℕ) :
    received results (n + 1) = received results n ++ (results n).bytes?.toList := by
  rw [received, List.range_succ, List.map_append, List.filterMap_append]
  cases hresult : results n with
  | bytes chunk => simp [hresult, Recv.bytes?, received]
  | closed => simp [hresult, Recv.bytes?, received]
  | error => simp [hresult, Recv.bytes?, received]

section

variable (site : Site) (around : ℕ → Surroundings) (i : ℕ) (commFd : ℤ)
  (garbage : Fin (maxLen + 1) → UInt8) (server : Connections.Server)

/-- The loop is the processing of the chunks; the table changes where the worker returns. -/
theorem afterCalls_eq (results : ℕ → Recv) (n : ℕ) :
    ∃ s, afterCalls site around i commFd (start garbage server) results n = some s ∧
      (received results n).foldlM (receive (serve site around)) (startWorker garbage {}) =
        some s.worker ∧
      s.server = if s.worker.closed then server.deregister i commFd .gone else server := by
  induction n with
  | zero => exact ⟨_, rfl, rfl, rfl⟩
  | succ n ih =>
    obtain ⟨s, hcalls, hrun, hserver⟩ := ih
    have hnext : afterCalls site around i commFd (start garbage server) results (n + 1) =
        iteration site around i commFd s (results n) := by
      rw [afterCalls, List.range_succ, List.map_append, List.foldlM_append]
      rw [afterCalls] at hcalls
      rw [hcalls]
      simp
    rw [hnext, received_succ]
    cases hresult : results n with
    | bytes chunk =>
      obtain ⟨w, hchunks, -⟩ :=
        receiveAll (serve site around) {} garbage (received results n ++ [chunk])
      have hreceive : receive (serve site around) s.worker chunk = some w := by
        rw [List.foldlM_append, hrun] at hchunks
        simpa using hchunks
      rw [iteration, Recv.bytes?, Option.toList_some, hchunks]
      cases hclosed : s.worker.closed with
      | true =>
        obtain rfl : s.worker = w := Option.some.inj ((if_pos hclosed).symm.trans hreceive)
        exact ⟨s, if_pos rfl, rfl, hserver⟩
      | false =>
        rw [hclosed, if_neg Bool.false_ne_true] at hserver
        rw [if_neg Bool.false_ne_true, hreceive, hserver]
        cases hw : w.closed with
        | true =>
          refine ⟨{ worker := w, server := server.deregister i commFd .gone }, ?_, rfl, ?_⟩
          · simp [hw]
          · exact (if_pos hw).symm
        | false =>
          refine ⟨{ worker := w, server := server }, ?_, rfl, ?_⟩
          · simp [hw]
          · exact (if_neg (by rw [hw]; exact Bool.false_ne_true)).symm
    | closed =>
      rw [Recv.bytes?, Option.toList_none, List.append_nil]
      exact ⟨s, rfl, hrun, hserver⟩
    | error =>
      rw [Recv.bytes?, Option.toList_none, List.append_nil]
      exact ⟨s, rfl, hrun, hserver⟩

/-- A `QUIT` in command mode is among the lines. -/
def SaysQuit (lines : List Bytes) : Prop :=
  ∃ before line after, lines = before ++ line :: after ∧
    (converse site (before.mapIdx fun i line ↦ (line, around i))).session.dataMode = false ∧
    commandOf line = .quit

variable {site around}

theorem quit_process_iff {around : Surroundings} {s : Session} {line : Bytes} :
    (process site around s line).quit = true ↔ s.dataMode = false ∧ commandOf line = .quit := by
  rw [process]
  cases hmode : s.dataMode with
  | true =>
    refine iff_of_false ?_ fun h ↦ Bool.false_ne_true h.1.symm
    rw [if_pos rfl, dataLine]
    split
    · exact Bool.false_ne_true
    · exact Bool.false_ne_true
  | false =>
    rw [if_neg Bool.false_ne_true, command]
    cases commandOf line with
    | quit => exact iff_of_true rfl ⟨rfl, rfl⟩
    | _ => exact iff_of_false Bool.false_ne_true fun h ↦ Command.noConfusion h.2

theorem handOn_cons_of_goesOn {τ : Type} {process : τ → Bytes → τ × Bool} {state : τ}
    {line : Bytes} (h : (process state line).2 = false) (lines : List Bytes) :
    (handOn process state (line :: lines)).1 = (handOn process (process state line).1 lines).1 ∧
      (handOn process state (line :: lines)).2.2 =
        (handOn process (process state line).1 lines).2.2 := by
  rw [handOn]
  simp [h]

theorem quit_handOn_iff {c : Conversation} (hopen : c.quit = false) (lines : List Bytes) :
    (handOn (serve site around) c lines).2.2 = true ↔
      ∃ before line after, lines = before ++ line :: after ∧
        (handOn (serve site around) c before).1.session.dataMode = false ∧
        commandOf line = .quit := by
  induction lines generalizing c with
  | nil => exact iff_of_false Bool.false_ne_true (by simp)
  | cons line lines ih =>
    have hserve : (serve site around c line).2 =
        (process site (around c.past.length) c.session line).quit := by
      rw [serve, Conversation.step, if_neg (by rw [hopen]; exact Bool.false_ne_true)]
      rfl
    cases hquit : (serve site around c line).2 with
    | true =>
      refine iff_of_true ?_ ⟨[], line, lines, rfl, ?_⟩
      · rw [handOn]
        simp [hquit]
      · exact quit_process_iff.mp (hserve.symm.trans hquit)
    | false =>
      rw [(handOn_cons_of_goesOn hquit lines).2]
      refine (ih (c := (serve site around c line).1) hquit).trans ?_
      constructor
      · rintro ⟨before, last, after, rfl, hmode, hlast⟩
        refine ⟨line :: before, last, after, rfl, ?_, hlast⟩
        rwa [(handOn_cons_of_goesOn hquit before).1]
      · rintro ⟨before, last, after, hlines, hmode, hlast⟩
        cases before with
        | nil =>
          obtain ⟨rfl, -⟩ := List.cons.inj hlines
          have htrue := hserve.trans (quit_process_iff.mpr ⟨hmode, hlast⟩)
          exact absurd (hquit.symm.trans htrue) Bool.false_ne_true
        | cons first before =>
          obtain ⟨rfl, rfl⟩ := List.cons.inj hlines
          refine ⟨before, last, after, rfl, ?_, hlast⟩
          rwa [(handOn_cons_of_goesOn hquit before).1] at hmode

/-- The session ends by a `QUIT` only. -/
theorem leaves_iff (chunks : List (List UInt8)) :
    Leaves (serve site around) {} chunks ↔
      SaysQuit site around (completeLines chunks.flatten) ∨ Overflows chunks := by
  rw [Leaves, quit_handOn_iff rfl, SaysQuit]
  simp only [handOn_serve]

theorem received_of_gone {results : ℕ → Recv} {n : ℕ}
    (hgone : ∀ m, n ≤ m → (results m).bytes? = none) (m : ℕ) :
    received results (n + m) = received results n := by
  induction m with
  | zero => rfl
  | succ m ih =>
    rw [← Nat.add_assoc, received_succ, hgone (n + m) (Nat.le_add_right n m), ih]
    exact List.append_nil _

/-- What was received stays received. -/
theorem received_prefix (results : ℕ → Recv) (n m : ℕ) :
    received results n <+: received results (n + m) := by
  induction m with
  | zero => exact List.prefix_rfl
  | succ m ih =>
    rw [← Nat.add_assoc, received_succ]
    exact ih.trans (List.prefix_append _ _)

/-- The loop has returned after some calls exactly when it has a reason to. -/
theorem closed_iff_leaves (i : ℕ) (commFd : ℤ) (garbage : Fin (maxLen + 1) → UInt8)
    (server : Connections.Server) (results : ℕ → Recv) (n : ℕ) :
    ∃ s, afterCalls site around i commFd (start garbage server) results n = some s ∧
      s.server = (if s.worker.closed then server.deregister i commFd .gone else server) ∧
      (s.worker.closed = true ↔ Leaves (serve site around) {} (received results n)) := by
  obtain ⟨s, hcalls, hrun, hserver⟩ := afterCalls_eq site around i commFd garbage server results n
  obtain ⟨w, hchunks, hw⟩ := receiveAll (serve site around) {} garbage (received results n)
  obtain rfl : s.worker = w := Option.some.inj (hrun.symm.trans hchunks)
  refine ⟨s, hcalls, hserver, ?_⟩
  rcases hw with ⟨hclosed, hleaves⟩ | ⟨hkeeps, hstays⟩
  · exact iff_of_true hclosed hleaves
  · refine iff_of_false ?_ hstays
    rw [hkeeps.closed]
    exact Bool.false_ne_true

/-- A worker whose client goes away ends exactly when the client has said `QUIT` before, or has
sent more than the buffer can take. -/
theorem worker_ends_iff (site : Site) (around : ℕ → Surroundings) (i : ℕ) (commFd : ℤ)
    (garbage : Fin (maxLen + 1) → UInt8) (server : Connections.Server) (results : ℕ → Recv) (n : ℕ)
    (hgone : ∀ m, n ≤ m → (results m).bytes? = none) :
    Ends site around i commFd (start garbage server) results ↔
      SaysQuit site around (completeLines (received results n).flatten) ∨
        Overflows (received results n) := by
  rw [← leaves_iff]
  constructor
  · rintro ⟨k, s, hcalls, hclosed, -⟩
    obtain ⟨s', hcalls', -, hiff⟩ := closed_iff_leaves i commFd garbage server results k
    obtain rfl := Option.some.inj (hcalls.symm.trans hcalls')
    have hleaves := hiff.mp hclosed
    rcases Nat.le_total k n with hle | hle
    · obtain ⟨more, hmore⟩ := received_prefix results k (n - k)
      rw [Nat.add_sub_cancel' hle] at hmore
      rw [← hmore]
      exact hleaves.append more
    · have hsame := received_of_gone hgone (k - n)
      rw [Nat.add_sub_cancel' hle] at hsame
      rwa [hsame] at hleaves
  · intro hleaves
    obtain ⟨s, hcalls, hserver, hiff⟩ := closed_iff_leaves i commFd garbage server results n
    have hclosed := hiff.mpr hleaves
    rw [if_pos hclosed] at hserver
    refine ⟨n, s, hcalls, hclosed, ?_, ?_⟩
    · rw [hserver]
      rfl
    · rw [hserver]
      rfl

end

def noUsers : Site where
  directory := []
  localhostUsers := []

def silent (_ : ℕ) : Surroundings where
  ctime := []
  opens := fun _ ↦ true

/-- A server with one registered worker. -/
def oneWorker : Connections.Server where
  activeConnections := [4]
  connCnt := 1
  workers := [.registered 4]

def quitThenClosed (n : ℕ) : Recv := if n = 0 then .bytes (lit "QUIT\r\n") else .closed

theorem worker_ends_quit :
    Ends noUsers silent 0 4 (start (fun _ ↦ 0) oneWorker) quitThenClosed := by
  have hgone : ∀ m, 1 ≤ m → (quitThenClosed m).bytes? = none := by
    intro m hm
    rw [quitThenClosed, if_neg (by omega)]
    rfl
  refine (worker_ends_iff noUsers silent 0 4 (fun _ ↦ 0) oneWorker quitThenClosed 1 hgone).mpr ?_
  exact .inl ⟨[], lit "QUIT", [], by decide +kernel, rfl, by decide +kernel⟩

/-- A client that closes the connection without a word leaves its worker behind. -/
theorem worker_stays_after_close :
    ¬Ends noUsers silent 0 4 (start (fun _ ↦ 0) oneWorker) fun _ ↦ .closed := by
  rintro ⟨n, s, hcalls, hclosed, -⟩
  obtain ⟨s', hcalls', -, hiff⟩ := @closed_iff_leaves noUsers silent 0 4 (fun _ ↦ 0) oneWorker
    (fun _ ↦ .closed) n
  obtain rfl := Option.some.inj (hcalls.symm.trans hcalls')
  have hnothing : received (fun _ ↦ .closed) n = [] := by
    rw [← Nat.zero_add n]
    exact received_of_gone (fun _ _ ↦ rfl) n
  have hleaves := hiff.mp hclosed
  rw [hnothing] at hleaves
  rcases hleaves with hquit | hlong
  · exact Bool.false_ne_true hquit
  · exact not_overflows_nil hlong

end PennCloud.Webmail.Disconnects
