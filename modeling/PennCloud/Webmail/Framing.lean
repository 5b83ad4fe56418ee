import PennCloud.Library.CBuffer
import PennCloud.Webmail.MailServer

/-!
# Lines out of received chunks

The receive loop of `worker` appends every chunk to the C string in `msg`, hands the lines that
are complete to the processing, and moves what follows each of them to the start of `msg`. Whatever
the chunks are, the lines handed on are those of the stream, and the unfinished one stays in `msg`.
-/

open PennCloud.KV.TabletCells PennCloud.Library.TextSearch PennCloud.Library.CBuffer
open PennCloud.Webmail.MailServer

namespace PennCloud.Webmail.Framing

/-- `MAX_LEN`. -/
def maxLen : ℕ := 8192

/-- `READ_BUFFER`. -/
def readBuffer : ℕ := 1024

def crlf : Bytes := lit "\r\n"

/-- The buffer of a worker, the state of the processing, and the lines handed to it. -/
structure Worker (τ : Type) where
  msg : List UInt8
  msgLen : ℤ := 0
  state : τ
  handed : List Bytes := []
  closed : Bool := false

section

variable {τ : Type} (process : τ → Bytes → τ × Bool)

/-- The loop over the complete lines in `msg`; an access outside of `msg` has no result. -/
def processLines : ℕ → Worker τ → Option (Worker τ)
  | 0, _ => none
  | fuel + 1, w => do
    match ← strstr w.msg crlf with
    | none => some w
    | some cmdEnd =>
      let msg ← store w.msg cmdEnd [0]
      let (state, quit) := process w.state (content msg)
      let w := { w with msg := msg, state := state, handed := w.handed ++ [content msg] }
      if quit then some { w with closed := true }
      else
        let msgLen : ℤ := w.msgLen - (cmdEnd + 2)
        let msg ← moveDown w.msg (cmdEnd + 2) (msgLen + 1)
        processLines fuel { w with msg := msg, msgLen := msgLen }

/-- One result of `recv`. -/
def receive (w : Worker τ) (chunk : List UInt8) : Option (Worker τ) :=
  if w.closed then some w
  else if w.msgLen + chunk.length > maxLen then some { w with closed := true }
  else do
    let msg ← if 0 ≤ w.msgLen then store w.msg w.msgLen.toNat (chunk ++ [0]) else none
    processLines process w.msg.length { w with msg := msg, msgLen := w.msgLen + chunk.length }

/-- A worker starts with any bytes in `msg`. -/
def startWorker (garbage : Fin (maxLen + 1) → UInt8) (state : τ) : Worker τ where
  msg := List.ofFn garbage
  state := state

/-- Process lines up to one that ends the session. -/
def handOn : τ → List Bytes → τ × List Bytes × Bool
  | state, [] => (state, [], false)
  | state, line :: lines =>
    let (state, quit) := process state line
    if quit then (state, [line], true)
    else
      let (state, handed, quit) := handOn state lines
      (state, line :: handed, quit)

variable {process}

variable (process) in
/-- Lines in two parts. -/
theorem handOn_append (state : τ) (first second : List Bytes) :
    handOn process state (first ++ second) =
      if (handOn process state first).2.2 then handOn process state first
      else
        let rest := handOn process (handOn process state first).1 second
        (rest.1, (handOn process state first).2.1 ++ rest.2.1, rest.2.2) := by
  induction first generalizing state with
  | nil => rfl
  | cons line lines ih =>
    rw [List.cons_append, handOn, handOn]
    cases hquit : (process state line).2 with
    | true => simp [hquit]
    | false =>
      simp only [hquit, Bool.false_eq_true, if_false]
      rw [ih]
      split
      · rfl
      · rfl

/-- Without an end all lines have been processed. -/
theorem handOn_handed {state : τ} {lines : List Bytes}
    (h : (handOn process state lines).2.2 = false) : (handOn process state lines).2.1 = lines := by
  induction lines generalizing state with
  | nil => rfl
  | cons line lines ih =>
    rw [handOn] at h ⊢
    cases hquit : (process state line).2 with
    | true => simp [hquit] at h
    | false =>
      simp only [hquit, Bool.false_eq_true, if_false] at h ⊢
      rw [ih h]

/-! ## The loops -/

/-- What the loop over complete lines leaves of a text. -/
structure Handed (process : τ → Bytes → τ × Bool) (w w' : Worker τ) (text : List UInt8) :
    Prop where
  size : w'.msg.length = w.msg.length
  msgLen : w'.msgLen ≤ w.msgLen
  state : w'.state = (handOn process w.state (cut crlf text).1).1
  handed : w'.handed = w.handed ++ (handOn process w.state (cut crlf text).1).2.1
  closed : w'.closed = (handOn process w.state (cut crlf text).1).2.2
  rest : w'.closed = false →
    (cut crlf text).2 <+: w'.msg ∧ w'.msgLen = (cut crlf text).2.length

theorem crlf_ne_nil : crlf ≠ [] := by decide

/-- The same where the array holds more bytes behind the zero byte of the text. -/
structure HandedUpTo (process : τ → Bytes → τ × Bool) (w w' : Worker τ) (text : List UInt8) :
    Prop where
  size : w'.msg.length = w.msg.length
  msgLen : w'.msgLen ≤ w.msgLen
  state : w'.state = (handOn process w.state (cut crlf text).1).1
  handed : w'.handed = w.handed ++ (handOn process w.state (cut crlf text).1).2.1
  closed : w'.closed = (handOn process w.state (cut crlf text).1).2.2
  rest : w'.closed = false → Holds w'.msg (cut crlf text).2 ∧
    w'.msgLen - (cut crlf text).2.length = w.msgLen - text.length

variable (process) in
theorem processLines_upTo {fuel : ℕ} {w : Worker τ} {text : List UInt8}
    (hholds : Holds w.msg text) (hlen : text.length ≤ w.msgLen) (hfits : w.msgLen < w.msg.length)
    (hopen : w.closed = false) (hfuel : text.length < fuel) :
    ∃ w', processLines process fuel w = some w' ∧ HandedUpTo process w w' text := by
  induction fuel generalizing w text with
  | zero => exact absurd hfuel (Nat.not_lt_zero _)
  | succ fuel ih =>
    rw [processLines, hholds.strstr]
    cases hfind : find? crlf text with
    | none =>
      refine ⟨w, rfl, ?_⟩
      have hcut := cut_of_none hfind
      constructor
      · rfl
      · exact Int.le_refl _
      · rw [hcut, handOn]
      · rw [hcut, handOn, List.append_nil]
      · rw [hcut, handOn, hopen]
      · intro _
        rw [hcut]
        exact ⟨hholds, rfl⟩
    | some p =>
      have hcut := cut_of_some crlf_ne_nil hfind
      have hp : p + 2 ≤ text.length := add_length_le_of_find? hfind
      obtain ⟨msg, hstore, hline⟩ := hholds.cut (show p ≤ text.length by omega)
      have hcontent := hline.content
      cases hquit : (process w.state (text.take p)).2 with
      | true =>
        refine ⟨{ w with
          msg := msg
          state := (process w.state (text.take p)).1
          handed := w.handed ++ [text.take p]
          closed := true }, ?_, ?_⟩
        · simp [hstore, hcontent, hquit]
        · constructor
          · exact store_length hstore
          · exact Int.le_refl _
          · simp [hcut, handOn, hquit]
          · simp [hcut, handOn, hquit]
          · simp [hcut, handOn, hquit]
          · exact fun hclosed ↦ absurd hclosed (by simp)
      | false =>
        have hdrop : (text.drop (p + 2)).length = text.length - (p + 2) := List.length_drop
        obtain ⟨moved, hmoved, hholds'⟩ :
            ∃ moved, moveDown msg (p + 2) (w.msgLen - (p + 2) + 1) = some moved ∧ _ :=
          hholds.moveRest hstore (show p < p + 2 by omega) hp (by omega) (by push_cast; omega)
        have hsize := (moveDown_length hmoved).trans (store_length hstore)
        obtain ⟨w', hrun, h⟩ := ih (w := { w with
            msg := moved
            msgLen := w.msgLen - (p + 2)
            state := (process w.state (text.take p)).1
            handed := w.handed ++ [text.take p] }) hholds' (by dsimp only; omega)
          (by dsimp only; omega) hopen (by omega)
        refine ⟨w', ?_, ?_⟩
        · rw [← hrun]
          simp [hstore, hcontent, hquit, hmoved]
        · have hsep : p + crlf.length = p + 2 := rfl
          rw [hsep] at hcut
          constructor
          · exact h.size.trans hsize
          · have hle := h.msgLen
            dsimp only at hle
            omega
          · simp [hcut, handOn, hquit, h.state]
          · simp [hcut, handOn, hquit, h.handed]
          · simp [hcut, handOn, hquit, h.closed]
          · intro hclosed
            obtain ⟨hrest, hbehind⟩ := h.rest hclosed
            rw [hcut]
            dsimp only at hbehind ⊢
            exact ⟨hrest, by omega⟩

theorem processLines_spec {fuel : ℕ} {w : Worker τ} {text : List UInt8}
    (hholds : Holds w.msg text) (hlen : w.msgLen = text.length) (hopen : w.closed = false)
    (hfuel : text.length < fuel) :
    ∃ w', processLines process fuel w = some w' ∧ Handed process w w' text := by
  have hlt := hholds.length_lt
  obtain ⟨w', hrun, h⟩ := processLines_upTo process hholds (by omega) (by omega) hopen hfuel
  refine ⟨w', hrun, h.size, h.msgLen, h.state, h.handed, h.closed, fun hclosed ↦ ?_⟩
  obtain ⟨hrest, hbehind⟩ := h.rest hclosed
  exact ⟨(List.prefix_append _ _).trans hrest.1, by omega⟩

/-- `recv` into the space behind what is there. -/
theorem receive_eq {w : Worker τ} {chunk msg : List UInt8} (hopen : w.closed = false)
    (hlen : 0 ≤ w.msgLen) (hfits : w.msgLen + chunk.length ≤ maxLen)
    (hstore : store w.msg w.msgLen.toNat (chunk ++ [0]) = some msg) :
    receive process w chunk = processLines process w.msg.length
      { w with msg := msg, msgLen := w.msgLen + chunk.length } := by
  rw [receive, if_neg (by rw [hopen]; exact Bool.false_ne_true), if_neg (by omega), if_pos hlen,
    hstore]
  rfl

/-- What a worker has made of a stream. -/
structure Framed (process : τ → Bytes → τ × Bool) (start : τ) (w : Worker τ)
    (stream : List UInt8) : Prop where
  size : w.msg.length = maxLen + 1
  msgLen : w.msgLen ≤ maxLen
  state : w.state = (handOn process start (cut crlf stream).1).1
  handed : w.handed = (handOn process start (cut crlf stream).1).2.1
  closed : w.closed = (handOn process start (cut crlf stream).1).2.2
  rest : w.closed = false →
    (cut crlf stream).2 <+: w.msg ∧ w.msgLen = (cut crlf stream).2.length

theorem framed_start (garbage : Fin (maxLen + 1) → UInt8) (state : τ) :
    Framed process state (startWorker garbage state) [] := by
  have hlen : (List.ofFn garbage).length = maxLen + 1 := List.length_ofFn
  constructor
  · simp only [startWorker]
    exact hlen
  · exact Int.natCast_nonneg _
  · rfl
  · rfl
  · rfl
  · exact fun _ ↦ ⟨List.nil_prefix, rfl⟩

/-- As long as the session is open, no byte is lost or doubled. -/
theorem Framed.bytes {start : τ} {w : Worker τ} {stream : List UInt8}
    (h : Framed process start w stream) (hopen : w.closed = false) :
    (w.handed.map (· ++ crlf)).flatten ++ w.msg.take w.msgLen.toNat = stream := by
  obtain ⟨hrest, hlen⟩ := h.rest hopen
  rw [h.closed] at hopen
  rw [h.handed, handOn_handed hopen, hlen, Int.toNat_natCast, ← List.prefix_iff_eq_take.mp hrest]
  exact flatten_cut crlf_ne_nil stream

theorem Framed.receive {start : τ} {w : Worker τ} {stream chunk : List UInt8}
    (h : Framed process start w stream) (hstream : 0 ∉ stream) (hchunk : 0 ∉ chunk)
    (hfits : (cut crlf stream).2.length + chunk.length ≤ maxLen) :
    ∃ w', receive process w chunk = some w' ∧ Framed process start w' (stream ++ chunk) := by
  have happend := cut_append crlf_ne_nil stream chunk
  have hsplit : handOn process start _ = _ := handOn_append process start (cut crlf stream).1
    (cut crlf ((cut crlf stream).2 ++ chunk)).1
  cases hclosed : w.closed with
  | true =>
    have hquit := h.closed.symm.trans hclosed
    rw [if_pos hquit] at hsplit
    refine ⟨w, by rw [Framing.receive, if_pos hclosed], h.size, h.msgLen, ?_, ?_, ?_, ?_⟩
    · rw [happend, hsplit]
      exact h.state
    · rw [happend, hsplit]
      exact h.handed
    · rw [happend, hsplit]
      exact h.closed
    · exact fun hopen ↦ absurd (hopen.symm.trans hclosed) (by decide)
  | false =>
    obtain ⟨hrest, hlen⟩ := h.rest hclosed
    have hopen : (handOn process start (cut crlf stream).1).2.2 = false :=
      h.closed.symm.trans hclosed
    have hzero : 0 ∉ (cut crlf stream).2 := by
      intro hin
      apply hstream
      rw [← flatten_cut crlf_ne_nil stream]
      exact List.mem_append_right _ hin
    have hsize := h.size
    obtain ⟨msg, hstore, hholds⟩ := holds_store hrest hzero hchunk (by omega)
    have hcount : w.msgLen + chunk.length = ((cut crlf stream).2 ++ chunk).length := by
      rw [hlen, List.length_append, Int.natCast_add]
    have hmsg := store_length hstore
    have hlt := hholds.length_lt
    obtain ⟨w', hrun, hw'⟩ : ∃ w', processLines process _
        { w with msg := msg, msgLen := w.msgLen + chunk.length } = some w' ∧ _ :=
      processLines_spec hholds hcount hclosed hlt
    have hnot : ¬w.msgLen + chunk.length > maxLen := by
      rw [hlen]
      omega
    rw [if_neg (by rw [hopen]; exact Bool.false_ne_true)] at hsplit
    refine ⟨w', ?_, ?_, ?_, ?_, ?_, ?_, ?_⟩
    · rw [receive_eq hclosed (by omega) (Int.not_lt.mp hnot)
        (by rw [hlen, Int.toNat_natCast]; exact hstore), ← hmsg]
      exact hrun
    · rw [hw'.size]
      exact hmsg.trans hsize
    · have hle := hw'.msgLen
      dsimp only at hle
      omega
    · rw [happend, hsplit, hw'.state, h.state]
    · rw [happend, hsplit, hw'.handed, h.handed, h.state]
    · rw [happend, hsplit, hw'.closed, h.state]
    · rw [happend]
      exact hw'.rest

theorem Framed.receiveAll {start : τ} {n : ℕ} (chunks : List (List UInt8))
    (hzero : 0 ∉ chunks.flatten) (hchunk : ∀ chunk ∈ chunks, chunk.length ≤ readBuffer)
    (hlines : ∀ line ∈ (cut crlf chunks.flatten).1, line.length < n)
    (hrest : (cut crlf chunks.flatten).2.length < n) (hfits : n + readBuffer ≤ maxLen)
    {w : Worker τ} (hw : Framed process start w []) :
    ∀ before after, chunks = before ++ after →
      ∃ w', before.foldlM (Framing.receive process) w = some w' ∧
        Framed process start w' before.flatten := by
  intro before
  induction before using List.reverseRecOn with
  | nil => exact fun _ _ ↦ ⟨w, rfl, hw⟩
  | append_singleton before chunk ih =>
    intro after hchunks
    obtain ⟨w', hrun, hw'⟩ := ih (chunk :: after) (by rw [hchunks, List.append_assoc]; rfl)
    have hin : chunk ∈ chunks := by
      rw [hchunks]
      simp
    have hflatten : chunks.flatten = before.flatten ++ (chunk ++ after.flatten) := by
      rw [hchunks]
      simp
    rw [hflatten] at hlines hrest hzero
    rw [List.mem_append, List.mem_append, not_or, not_or] at hzero
    have hshort : (cut crlf before.flatten).2.length < n + 2 - 1 :=
      length_rest_lt crlf_ne_nil _ _ hlines hrest
    have hlen := hchunk chunk hin
    obtain ⟨w'', hreceive, hw''⟩ := hw'.receive hzero.1 hzero.2.1 (by omega)
    refine ⟨w'', ?_, by simpa using hw''⟩
    rw [List.foldlM_append, hrun]
    simpa using hreceive

/-! ## Any bytes -/

/-- The text at the start of `msg` is no line, and a zero byte keeps what comes later away from it. -/
def Stuck (w : Worker τ) : Prop :=
  w.msg.length = maxLen + 1 ∧ w.msgLen ≤ maxLen ∧
    ∃ rest, Holds w.msg rest ∧ find? crlf rest = none ∧ rest.length < w.msgLen

variable (process) in
theorem Stuck.receive {w : Worker τ} (h : Stuck w) (hopen : w.closed = false)
    (chunk : List UInt8) :
    ∃ w', receive process w chunk = some w' ∧ w'.state = w.state ∧ w'.handed = w.handed ∧
      (w'.closed = true ∨ Stuck w') := by
  obtain ⟨hsize, hle, rest, hholds, hnone, hlt⟩ := h
  by_cases hlong : w.msgLen + chunk.length > maxLen
  · rw [Framing.receive, if_neg (by rw [hopen]; exact Bool.false_ne_true), if_pos hlong]
    exact ⟨_, rfl, rfl, rfl, .inl rfl⟩
  · have hfits : w.msgLen.toNat + (chunk ++ [0]).length ≤ w.msg.length := by
      rw [List.length_append, List.length_singleton]
      omega
    obtain ⟨msg, hstore⟩ : ∃ msg, store w.msg w.msgLen.toNat (chunk ++ [0]) = some msg :=
      ⟨_, if_pos hfits⟩
    have hholds' := hholds.store_behind (by omega) hstore
    obtain ⟨fuel, hfuel⟩ : ∃ fuel, w.msg.length = fuel + 1 := ⟨maxLen, hsize⟩
    refine ⟨{ w with msg := msg, msgLen := w.msgLen + chunk.length }, ?_, rfl, rfl, .inr ?_⟩
    · rw [receive_eq hopen (by omega) (by omega) hstore, hfuel, processLines, hholds'.strstr, hnone]
      rfl
    · refine ⟨(store_length hstore).trans hsize, by dsimp only; omega, rest, hholds', hnone, ?_⟩
      dsimp only
      omega

/-- A worker has processed the first lines of a stream, and may have given up. -/
structure Begun (process : τ → Bytes → τ × Bool) (start : τ) (w : Worker τ)
    (stream : List UInt8) : Prop where
  lines : ∃ done, done <+: (cut crlf stream).1 ∧ w.state = (handOn process start done).1 ∧
    w.handed = (handOn process start done).2.1
  goesOn : w.closed = false → Stuck w ∨ 0 ∉ stream ∧ Framed process start w stream

theorem Framed.begun {start : τ} {w : Worker τ} {stream : List UInt8}
    (h : Framed process start w stream) (hzero : 0 ∉ stream) : Begun process start w stream where
  lines := ⟨_, List.prefix_rfl, h.state, h.handed⟩
  goesOn _ := .inr ⟨hzero, h⟩

/-- What has been processed stays an initial segment when more bytes come. -/
theorem Begun.same {start : τ} {w : Worker τ} {stream : List UInt8}
    (h : Begun process start w stream) (w' : Worker τ) (hstate : w'.state = w.state)
    (hhanded : w'.handed = w.handed) (hw' : w'.closed = true ∨ Stuck w') (chunk : List UInt8) :
    Begun process start w' (stream ++ chunk) := by
  obtain ⟨done, hdone, hstate', hhanded'⟩ := h.lines
  constructor
  · refine ⟨done, hdone.trans ?_, hstate.trans hstate', hhanded.trans hhanded'⟩
    rw [cut_append crlf_ne_nil]
    exact List.prefix_append _ _
  · intro hopen
    rcases hw' with hclosed | hstuck
    · exact absurd (hopen.symm.trans hclosed) Bool.false_ne_true
    · exact .inl hstuck

/-- A chunk with a zero byte behind a framed stream. -/
theorem Framed.receive_zero {start : τ} {w : Worker τ} {stream front behind : List UInt8}
    (h : Framed process start w stream) (hclosed : w.closed = false) (hzero : 0 ∉ stream)
    (hfront : 0 ∉ front) (hfits : w.msgLen + (front ++ 0 :: behind).length ≤ maxLen) :
    ∃ w', Framing.receive process w (front ++ 0 :: behind) = some w' ∧
      Begun process start w' (stream ++ (front ++ 0 :: behind)) := by
  obtain ⟨hrest, hlen⟩ := h.rest hclosed
  have hopen : (handOn process start (cut crlf stream).1).2.2 = false :=
    h.closed.symm.trans hclosed
  have hzero' : 0 ∉ (cut crlf stream).2 := by
    intro hin
    apply hzero
    rw [← flatten_cut crlf_ne_nil stream]
    exact List.mem_append_right _ hin
  have hsize := h.size
  have hchunk : (front ++ 0 :: behind) ++ [0] = front ++ 0 :: (behind ++ [0]) := by simp
  have hcount : (front ++ 0 :: behind).length = front.length + (behind.length + 1) := by
    rw [List.length_append, List.length_cons]
  obtain ⟨msg, hstore, hholds⟩ :
      ∃ msg, store w.msg (cut crlf stream).2.length (front ++ 0 :: (behind ++ [0])) = some msg ∧ _ :=
    holds_store_upTo hrest hzero' hfront
      (by rw [← hchunk, List.length_append, hcount, List.length_singleton]; omega)
  have hmsg := store_length hstore
  obtain ⟨w', hrun, hw'⟩ := processLines_upTo process
    (w := { w with msg := msg, msgLen := w.msgLen + (front ++ 0 :: behind).length })
    hholds (by dsimp only; rw [List.length_append, hcount]; push_cast; omega)
    (by dsimp only; omega) hclosed hholds.length_lt
  refine ⟨w', ?_, ?_, ?_⟩
  · rw [receive_eq hclosed (by omega) hfits (by rw [hchunk, hlen, Int.toNat_natCast]; exact hstore),
      ← hmsg]
    exact hrun
  · have hsplit := handOn_append process start (cut crlf stream).1
      (cut crlf ((cut crlf stream).2 ++ front)).1
    rw [if_neg (by rw [hopen]; exact Bool.false_ne_true), ← h.state, ← h.handed] at hsplit
    have hlines : (cut crlf (stream ++ front)).1 =
        (cut crlf stream).1 ++ (cut crlf ((cut crlf stream).2 ++ front)).1 := by
      rw [cut_append crlf_ne_nil]
    refine ⟨(cut crlf (stream ++ front)).1, ?_, ?_, ?_⟩
    · rw [← List.append_assoc, cut_append crlf_ne_nil (stream ++ front)]
      exact List.prefix_append _ _
    · rw [hlines, hsplit]
      exact hw'.state
    · rw [hlines, hsplit]
      exact hw'.handed
  · intro hopen'
    obtain ⟨hholds', hbehind⟩ := hw'.rest hopen'
    refine .inl ⟨hw'.size.trans (hmsg.trans hsize), ?_, _, hholds', find?_rest crlf_ne_nil _, ?_⟩
    · have hle := hw'.msgLen
      dsimp only at hle
      omega
    · dsimp only at hbehind
      rw [hcount, List.length_append] at hbehind
      push_cast at hbehind
      omega

theorem Begun.receive {start : τ} {w : Worker τ} {stream : List UInt8}
    (h : Begun process start w stream) (chunk : List UInt8) :
    ∃ w', receive process w chunk = some w' ∧ Begun process start w' (stream ++ chunk) := by
  cases hclosed : w.closed with
  | true =>
    exact ⟨w, if_pos hclosed, h.same w rfl rfl (.inl hclosed) chunk⟩
  | false =>
    have hnot : ¬w.closed = true := by
      rw [hclosed]
      exact Bool.false_ne_true
    rcases h.goesOn hclosed with hstuck | ⟨hzero, hframed⟩
    · obtain ⟨w', hrun, hstate, hhanded, hw'⟩ := hstuck.receive process hclosed chunk
      exact ⟨w', hrun, h.same w' hstate hhanded hw' chunk⟩
    · by_cases hlong : w.msgLen + chunk.length > maxLen
      · have hsame : Begun process start { w with closed := true } (stream ++ chunk) :=
          h.same { w with closed := true } rfl rfl (.inl rfl) chunk
        exact ⟨_, by rw [Framing.receive, if_neg hnot, if_pos hlong], hsame⟩
      · obtain ⟨-, hlen⟩ := hframed.rest hclosed
        by_cases hchunk : 0 ∈ chunk
        · obtain ⟨front, behind, rfl, hfront⟩ := List.eq_append_cons_of_mem hchunk
          exact hframed.receive_zero hclosed hzero hfront (Int.not_lt.mp hlong)
        · obtain ⟨w', hrun, hw'⟩ := hframed.receive hzero hchunk (by omega)
          refine ⟨w', hrun, hw'.begun fun hin ↦ ?_⟩
          rcases List.mem_append.mp hin with hin | hin
          · exact hzero hin
          · exact hchunk hin

variable (process) in
/-- Whatever the chunks are, a worker processes an initial segment of the lines of the stream. -/
theorem receiveAll_begun (start : τ) (garbage : Fin (maxLen + 1) → UInt8)
    (chunks : List (List UInt8)) :
    ∃ w, chunks.foldlM (receive process) (startWorker garbage start) = some w ∧
      Begun process start w chunks.flatten := by
  induction chunks using List.reverseRecOn with
  | nil => exact ⟨_, rfl, (framed_start garbage start).begun List.not_mem_nil⟩
  | append_singleton chunks chunk ih =>
    obtain ⟨w, hrun, hw⟩ := ih
    obtain ⟨w', hreceive, hw'⟩ := hw.receive chunk
    refine ⟨w', ?_, by simpa using hw'⟩
    rw [List.foldlM_append, hrun]
    simpa using hreceive

end

/-! ## The mail server -/

/-- One line of a conversation, with what the world answers to the line of this number. -/
def serve (site : Site) (around : ℕ → Surroundings) (c : Conversation) (line : Bytes) :
    Conversation × Bool :=
  let c := (c.step site (line, around c.past.length)).getD c
  (c, c.quit)

/-- Processing the lines up to `QUIT` is the conversation of all lines. -/
theorem handOn_serve (site : Site) (around : ℕ → Surroundings) (lines : List Bytes) :
    (handOn (serve site around) {} lines).1 =
      converse site (lines.mapIdx fun i line ↦ (line, around i)) := by
  have hquit : ∀ (events : List (Bytes × Surroundings)) (c : Conversation), c.quit = true →
      events.foldl (fun c event ↦ (c.step site event).getD c) c = c := by
    intro events
    induction events with
    | nil => exact fun _ _ ↦ rfl
    | cons event events ih =>
      intro c hc
      rw [List.foldl_cons, Conversation.step, if_pos hc]
      exact ih c hc
  have hall : ∀ (lines : List Bytes) (c : Conversation), c.quit = false →
      (handOn (serve site around) c lines).1 =
        (lines.mapIdx fun i line ↦ (line, around (i + c.past.length))).foldl
          (fun c event ↦ (c.step site event).getD c) c := by
    intro lines
    induction lines with
    | nil => exact fun _ _ ↦ rfl
    | cons line lines ih =>
      intro c hc
      rw [handOn, List.mapIdx_cons, List.foldl_cons, Nat.zero_add]
      have hstep : ∃ next, c.step site (line, around c.past.length) = some next ∧
          next.past.length = c.past.length + 1 := by
        refine ⟨_, if_neg (by rw [hc]; exact Bool.false_ne_true), ?_⟩
        rw [List.length_append, List.length_singleton]
      obtain ⟨next, hstep, hlen⟩ := hstep
      simp only [serve, hstep, Option.getD_some]
      cases hnext : next.quit with
      | true => simp [hquit _ next hnext]
      | false =>
        have hrest := ih next hnext
        simp only [hlen] at hrest
        simp only [Bool.false_eq_true, if_false]
        rw [hrest]
        congr 2
        funext i line
        rw [Nat.add_right_comm, Nat.add_assoc]
  exact hall lines {} rfl

/-- However a stream is cut into chunks, after each of them the worker has handed on the complete
lines up to a `QUIT`, one by one, and keeps the unfinished line; every copy stays inside `msg`. -/
theorem framing_independent_of_chunks (site : Site) (around : ℕ → Surroundings)
    (garbage : Fin (maxLen + 1) → UInt8) (chunks : List (List UInt8))
    (hzero : 0 ∉ chunks.flatten) (hchunk : ∀ chunk ∈ chunks, chunk.length ≤ readBuffer)
    (hlines : ∀ line ∈ (cut crlf chunks.flatten).1, line.length < 7000)
    (hrest : (cut crlf chunks.flatten).2.length < 7000) :
    ∀ before after, chunks = before ++ after →
      ∃ w, before.foldlM (receive (serve site around)) (startWorker garbage {}) = some w ∧
        w.handed = (handOn (serve site around) {} (cut crlf before.flatten).1).2.1 ∧
        w.state = converse site
          ((cut crlf before.flatten).1.mapIdx fun i line ↦ (line, around i)) ∧
        w.msgLen ≤ maxLen ∧
        (w.closed = false →
          w.handed = (cut crlf before.flatten).1 ∧
          w.msgLen = (cut crlf before.flatten).2.length ∧
          w.msg.take w.msgLen.toNat = (cut crlf before.flatten).2 ∧
          (w.handed.map (· ++ crlf)).flatten ++ w.msg.take w.msgLen.toNat = before.flatten) := by
  intro before after hchunks
  have hstart : Framed (serve site around) {} (startWorker garbage {}) [] :=
    framed_start garbage _
  obtain ⟨w, hrun, hw⟩ := Framed.receiveAll chunks hzero hchunk hlines hrest (by decide) hstart
    before after hchunks
  refine ⟨w, hrun, hw.handed, hw.state.trans (handOn_serve site around _), hw.msgLen, ?_⟩
  intro hopen
  obtain ⟨hbegins, hlen⟩ := hw.rest hopen
  refine ⟨?_, hlen, ?_, hw.bytes hopen⟩
  · have hclosed := hw.closed.symm.trans hopen
    rw [hw.handed, handOn_handed hclosed]
  · rw [hlen, Int.toNat_natCast]
    exact (List.prefix_iff_eq_take.mp hbegins).symm

def noUsers : Site where
  directory := []
  localhostUsers := []

def silent (_ : ℕ) : Surroundings where
  ctime := []
  opens := fun _ ↦ true

/-- Two lines and a half; the first line end is split between the chunks. -/
def straddling : List (List UInt8) := [lit "HELO client\r", lit "\nQUIT\r\nmore"]

theorem framing_independent_of_chunks_straddling :
    ∃ w, straddling.foldlM (receive (serve noUsers silent)) (startWorker (fun _ ↦ 0) {}) = some w ∧
      w.handed = [lit "HELO client", lit "QUIT"] := by
  obtain ⟨w, hrun, hhanded, -⟩ := framing_independent_of_chunks noUsers silent (fun _ ↦ 0)
    straddling (by decide) (by decide) (by decide) (by decide) straddling [] (by decide)
  exact ⟨w, hrun, hhanded⟩

end PennCloud.Webmail.Framing
