import PennCloud.Webmail.MailServer

/-!
# The protocol of a session

What one line can do is said once; from it follows what the fields of a session tell about the
commands accepted since the last `RSET`: a client domain means a `HELO`, a sender a `MAIL FROM`
after it, and every recipient an `RCPT TO` after that. Data mode has a recipient, and a
mailbox is only written for a recipient that was accepted.
-/

open PennCloud.KV.TabletCells PennCloud.Library.Runs PennCloud.Library.History
open PennCloud.Webmail.MailServer

namespace PennCloud.Webmail.Protocol

/-! ## One line -/

/-- What a line can do. A refused line changes nothing. -/
inductive Processed (site : Site) (around : Surroundings) (s : Session) (line : Bytes) :
    Outcome → Prop
  | text (hmode : s.dataMode = true) (hdot : ¬lit "." <+: line) :
      Processed site around s line { session := { s with data := s.data ++ line ++ lit "\r\n" } }
  | finished (hmode : s.dataMode = true) (hdot : lit "." <+: line) :
      Processed site around s line (finishMessage site around s)
  | helo (hmode : s.dataMode = false) (argument response : Bytes)
      (hcommand : commandOf line = .helo argument) (hok : response ≠ ok)
      (haccepted : argument ≠ [] → response = lit "250 localhost\r\n") :
      Processed site around s line (respond ({ s with clientDomain := argument }, response))
  | mail (hmode : s.dataMode = false) (argument user domain : Bytes)
      (hcommand : commandOf line = .mailFrom argument) (hclient : s.clientDomain ≠ [])
      (hrcpt : s.rcptTo = []) (hmatch : matchAddress argument = some (user, domain)) :
      Processed site around s line (respond
        ({ s with mailFromUser := user, mailFromDomain := domain, initialState := false }, ok))
  | rcpt (hmode : s.dataMode = false) (argument user domain : Bytes)
      (hcommand : commandOf line = .rcptTo argument)
      (hsender : ¬(s.mailFromUser = [] ∧ s.mailFromDomain = []))
      (hmatch : matchAddress argument = some (user, domain)) :
      Processed site around s line
        (respond ({ s with rcptTo := s.rcptTo ++ [(user, domain)] }, ok))
  | data (hmode : s.dataMode = false) (hcommand : commandOf line = .data) (hrcpt : s.rcptTo ≠ []) :
      Processed site around s line (respond
        ({ s with
            dataMode := true
            data := fromLine s.mailFromUser s.mailFromDomain around.ctime },
          lit "354 Accepting data.\r\n"))
  | reset (hmode : s.dataMode = false) (hcommand : commandOf line = .rset) :
      Processed site around s line (respond ({}, ok))
  | noop (hmode : s.dataMode = false) (hcommand : commandOf line = .noop) :
      Processed site around s line (respond (s, ok))
  | refused (hmode : s.dataMode = false) (response : Bytes) (quit : Bool) (hok : response ≠ ok)
      (hdata : response ≠ lit "354 Accepting data.\r\n") :
      Processed site around s line
        { session := s, effects := [.send response], quit := quit }

/-- The replies that refuse a command begin with the digit 5. -/
theorem Processed.refuse {site : Site} {around : Surroundings} {s : Session} {line : Bytes}
    (hmode : s.dataMode = false) {response : Bytes} (hfive : response.head? = some 53) :
    Processed site around s line (respond (s, response)) := by
  have hother : ∀ other : Bytes, other.head? ≠ some 53 → response ≠ other := by
    intro other hhead heq
    exact hhead (heq ▸ hfive)
  exact .refused hmode response false (hother ok (by decide)) (hother _ (by decide))

theorem head?_helloFirst : helloFirst.head? = some 53 := by decide +kernel

theorem head?_invalidAddress : invalidAddress.head? = some 53 := by decide +kernel

theorem processed (site : Site) (around : Surroundings) (s : Session) (line : Bytes) :
    Processed site around s line (process site around s line) := by
  unfold process
  cases hmode : s.dataMode with
  | true =>
    rw [if_pos rfl, dataLine]
    split
    · next hdot => exact .finished hmode hdot
    · next hdot => exact .text hmode hdot
  | false =>
    rw [if_neg Bool.false_ne_true, command]
    cases hcommand : commandOf line with
    | helo argument =>
      simp only [helo]
      split
      · exact .refuse hmode rfl
      · split
        · next hnil => exact .helo hmode argument _ hcommand (by decide) (absurd hnil)
        · exact .helo hmode argument _ hcommand (by decide) fun _ ↦ rfl
    | mailFrom argument =>
      simp only [mailFrom]
      split
      · exact .refuse hmode head?_helloFirst
      · next hclient =>
        split
        · next hrcpt =>
          split
          · next user domain hmatch =>
            exact .mail hmode argument user domain hcommand hclient hrcpt hmatch
          · exact .refuse hmode head?_invalidAddress
        · exact .refuse hmode rfl
    | rcptTo argument =>
      simp only [rcptTo]
      split
      · exact .refuse hmode rfl
      · next hsender =>
        split
        · next user domain hmatch =>
          split
          · exact .refuse hmode rfl
          · exact .rcpt hmode argument user domain hcommand hsender hmatch
        · exact .refuse hmode head?_invalidAddress
    | data =>
      simp only [beginData]
      split
      · exact .refuse hmode rfl
      · next hrcpt => exact .data hmode hcommand hrcpt
    | quit => exact .refused hmode _ true (by decide) (by decide)
    | rset =>
      simp only [rset]
      split
      · exact .refuse hmode head?_helloFirst
      · exact .reset hmode hcommand
    | noop =>
      simp only [noop]
      split
      · exact .refuse hmode head?_helloFirst
      · exact .noop hmode hcommand
    | unrecognized => exact .refuse hmode rfl

/-- A line with a dot is no command. -/
theorem commandOf_dot {line : Bytes} (h : lit "." <+: line) : commandOf line = .unrecognized := by
  obtain ⟨rest, rfl⟩ := h
  rfl

/-! ## Addresses -/

/-- A non-empty word over letters, digits and dots. -/
def Address (text : Bytes) : Prop := text ≠ [] ∧ ∀ b ∈ text, addressChar b = true

theorem matchAddress_address {text user domain : Bytes}
    (h : matchAddress text = some (user, domain)) : Address user ∧ Address domain := by
  have hword : ∀ text : Bytes, text.takeWhile addressChar ≠ [] →
      Address (text.takeWhile addressChar) :=
    fun text hne ↦ ⟨hne, fun b hb ↦ List.mem_takeWhile_imp hb⟩
  unfold matchAddress at h
  split at h
  · split at h
    · split at h
      · next hall =>
        simp only [Option.some.injEq, Prod.mk.injEq] at h
        rw [← h.1, ← h.2]
        exact ⟨hword _ hall.1, hword _ hall.2.1⟩
      · cases h
    · cases h
  · cases h

/-! ## The fields of a session -/

/-- The commands behind a recipient of mail from this sender, in the order in which they were
accepted. -/
def Named (user domain : Bytes) (xs : List Exchange) (rcpt : Bytes × Bytes) : Prop :=
  ∃ h m r, [h, m, r].Sublist xs ∧ h.AcceptedHelo ∧ m.AcceptedMail user domain ∧
    r.AcceptedRcpt rcpt.1 rcpt.2

/-- The commands behind a sender. -/
structure Sender (user domain : Bytes) (xs : List Exchange) : Prop where
  addresses : Address user ∧ Address domain
  commands : ∃ h m, [h, m].Sublist xs ∧ h.AcceptedHelo ∧ m.AcceptedMail user domain

/-- What the fields tell about the exchanges since the last `RSET`. -/
structure Tracks (s : Session) (xs : List Exchange) : Prop where
  client : s.clientDomain ≠ [] → ∃ h ∈ xs, h.AcceptedHelo
  sender : ¬(s.mailFromUser = [] ∧ s.mailFromDomain = []) → Sender s.mailFromUser s.mailFromDomain xs
  rcpts : ∀ rcpt ∈ s.rcptTo, Named s.mailFromUser s.mailFromDomain xs rcpt
  named : s.rcptTo ≠ [] → ¬(s.mailFromUser = [] ∧ s.mailFromDomain = [])
  mode : s.dataMode = true → s.rcptTo ≠ []
  heading : s.dataMode = true → fromLine s.mailFromUser s.mailFromDomain [] <+: s.data

theorem Named.more {user domain : Bytes} {xs : List Exchange} {rcpt : Bytes × Bytes}
    (h : Named user domain xs rcpt) (x : Exchange) : Named user domain (xs ++ [x]) rcpt := by
  obtain ⟨hello, mail, rcpt', hsub, haccepted⟩ := h
  exact ⟨hello, mail, rcpt', hsub.trans (List.sublist_append_left _ _), haccepted⟩

theorem Sender.more {user domain : Bytes} {xs : List Exchange} (h : Sender user domain xs)
    (x : Exchange) : Sender user domain (xs ++ [x]) := by
  obtain ⟨hello, mail, hsub, haccepted⟩ := h.commands
  exact ⟨h.addresses, hello, mail, hsub.trans (List.sublist_append_left _ _), haccepted⟩

theorem Tracks.more {s : Session} {xs : List Exchange} (h : Tracks s xs) (x : Exchange) :
    Tracks s (xs ++ [x]) where
  client hne := by
    obtain ⟨hello, hmem, haccepted⟩ := h.client hne
    exact ⟨hello, List.mem_append_left _ hmem, haccepted⟩
  sender hne := (h.sender hne).more x
  rcpts rcpt hmem := (h.rcpts rcpt hmem).more x
  named := h.named
  mode := h.mode
  heading := h.heading

theorem tracks_nil : Tracks {} [] where
  client h := absurd rfl h
  sender h := absurd ⟨rfl, rfl⟩ h
  rcpts _ hmem := absurd hmem List.not_mem_nil
  named h := absurd rfl h
  mode h := absurd h Bool.false_ne_true
  heading h := absurd h Bool.false_ne_true

/-- Only an accepted `RSET` starts anew. -/
theorem sinceReset_concat {past : List Exchange} {x : Exchange}
    (h : commandOf x.line = .rset → .send ok ∉ x.effects) :
    sinceReset (past ++ [x]) = sinceReset past ++ [x] := by
  refine since_concat_of_not (fun hreset ↦ ?_) past
  apply h hreset.1
  rw [hreset.2]
  exact List.mem_singleton_self _

theorem sinceReset_command {past : List Exchange} {line : Bytes} {command : Command}
    (hcommand : commandOf line = command) (hne : command ≠ .rset) (effects : List Effect)
    (session : Session) :
    sinceReset (past ++ [⟨line, effects, session⟩]) =
      sinceReset past ++ [⟨line, effects, session⟩] :=
  sinceReset_concat fun hreset ↦ absurd (hcommand.symm.trans hreset) hne

/-- One line keeps the account. -/
theorem Tracks.next {site : Site} {around : Surroundings} {s : Session} {past : List Exchange}
    (h : Tracks s (sinceReset past)) (line : Bytes) :
    Tracks (process site around s line).session (sinceReset (past ++
      [⟨line, (process site around s line).effects, (process site around s line).session⟩])) := by
  have hprocessed := processed site around s line
  generalize process site around s line = outcome at hprocessed
  cases hprocessed with
  | text hmode hdot =>
    rw [sinceReset_concat fun _ ↦ List.not_mem_nil]
    have hmore := h.more ⟨line, [], { s with data := s.data ++ line ++ lit "\r\n" }⟩
    exact { hmore with
      heading := fun _ ↦ by
        have hbegins := h.heading hmode
        exact (hbegins.trans (List.prefix_append _ _)).trans (List.prefix_append _ _) }
  | finished hmode hdot =>
    rw [sinceReset_command (commandOf_dot hdot) Command.noConfusion]
    exact { h.more _ with
      mode := fun hfalse ↦ absurd hfalse Bool.false_ne_true
      heading := fun hfalse ↦ absurd hfalse Bool.false_ne_true }
  | helo hmode argument response hcommand hok haccepted =>
    rw [sinceReset_command hcommand Command.noConfusion]
    exact { h.more _ with
      client := fun hne ↦ by
        refine ⟨_, List.mem_append_right _ (List.mem_singleton_self _), argument, hne, hcommand, ?_⟩
        exact congrArg (fun r ↦ [Effect.send r]) (haccepted hne) }
  | mail hmode argument user domain hcommand hclient hrcpt hmatch =>
    rw [sinceReset_command hcommand Command.noConfusion]
    obtain ⟨huser, hdomain⟩ := matchAddress_address hmatch
    obtain ⟨hello, hmem, haccepted⟩ := h.client hclient
    exact { h.more _ with
      sender := fun _ ↦
        { addresses := ⟨huser, hdomain⟩
          commands := ⟨hello, _, (List.singleton_sublist.mpr hmem).append (List.Sublist.refl _),
            haccepted, argument, hcommand, hmatch, rfl⟩ }
      rcpts := fun rcpt hin ↦ by
        rw [show s.rcptTo = [] from hrcpt] at hin
        exact absurd hin List.not_mem_nil
      named := fun hne ↦ absurd hrcpt hne
      mode := fun htrue ↦ absurd htrue (Bool.eq_false_iff.mp hmode)
      heading := fun htrue ↦ absurd htrue (Bool.eq_false_iff.mp hmode) }
  | rcpt hmode argument user domain hcommand hsender hmatch =>
    rw [sinceReset_command hcommand Command.noConfusion]
    obtain ⟨hello, mail, hsub, hhello, hmail⟩ := (h.sender hsender).commands
    exact { h.more _ with
      rcpts := fun rcpt hin ↦ by
        rcases List.mem_append.mp hin with hold | hnew
        · exact (h.rcpts rcpt hold).more _
        · obtain rfl := List.mem_singleton.mp hnew
          exact ⟨hello, mail, _, hsub.append (List.Sublist.refl _), hhello, hmail, argument,
            hcommand, hmatch, rfl⟩
      named := fun _ ↦ hsender
      mode := fun htrue ↦ absurd htrue (Bool.eq_false_iff.mp hmode)
      heading := fun htrue ↦ absurd htrue (Bool.eq_false_iff.mp hmode) }
  | data hmode hcommand hrcpt =>
    rw [sinceReset_command hcommand Command.noConfusion]
    exact { h.more _ with
      mode := fun _ ↦ hrcpt
      heading := fun _ ↦ by
        simp only [respond, fromLine, List.append_nil]
        exact List.prefix_append _ _ }
  | reset hmode hcommand =>
    have hreset : sinceReset (past ++ [⟨line, [.send ok], {}⟩]) = [] :=
      since_concat_of ⟨hcommand, rfl⟩ past
    simp only [respond, hreset]
    exact tracks_nil
  | noop hmode hcommand =>
    rw [sinceReset_command hcommand Command.noConfusion]
    exact h.more _
  | refused hmode response quit hok hdata =>
    rw [sinceReset_concat fun _ hin ↦ hok (Effect.send.inj (List.mem_singleton.mp hin)).symm]
    exact h.more _

/-! ## Runs -/

/-- Every line of a conversation is a step of the machine or comes after `QUIT`. -/
theorem reaches_converse (site : Site) (events : List (Bytes × Surroundings)) :
    Reaches (machine site) anyStep {} (converse site events) := by
  have hall : ∀ (events : List (Bytes × Surroundings)) (c : Conversation),
      Reaches (machine site) anyStep {} c →
        Reaches (machine site) anyStep {}
          (events.foldl (fun c event ↦ (c.step site event).getD c) c) := by
    intro events
    induction events with
    | nil => exact fun c h ↦ h
    | cons event events ih =>
      intro c h
      apply ih
      cases hstep : c.step site event with
      | none => simpa [hstep] using h
      | some next => simpa [hstep] using h.tail (e := event) trivial hstep
  exact hall events {} .refl

theorem reaches_tracks {site : Site} {ok : Conversation → Bytes × Surroundings → Prop}
    {c : Conversation} (h : Reaches (machine site) ok {} c) :
    Tracks c.session (sinceReset c.past) := by
  induction h with
  | refl => exact tracks_nil
  | @tail c next event _ _ hstep ih =>
    obtain ⟨-, rfl⟩ := Conversation.step_eq_some hstep
    exact ih.next event.1

/-- A law that every line keeps holds of every exchange. -/
theorem reaches_every {site : Site} {P : List Exchange → Exchange → Prop}
    {ok : Conversation → Bytes × Surroundings → Prop} {c : Conversation}
    (h : Reaches (machine site) ok {} c)
    (hline : ∀ c (event : Bytes × Surroundings), Reaches (machine site) ok {} c → ok c event →
      P c.past ⟨event.1, (process site event.2 c.session event.1).effects,
        (process site event.2 c.session event.1).session⟩) :
    Every P c.past := by
  induction h with
  | refl => exact every_nil P
  | @tail c next event hreach hok hstep ih =>
    obtain ⟨-, rfl⟩ := Conversation.step_eq_some hstep
    exact every_concat.mpr ⟨ih, hline c event hreach hok⟩

/-! ## Effects -/

theorem append_mem_deliver {site : Site} {text path data : Bytes} {opens : Bool}
    {rcpt : Bytes × Bytes} (h : .append path data ∈ deliver site text opens rcpt) :
    rcpt.1 ∈ site.localhostUsers ∧ rcpt.2 = lit "localhost" ∧ path = mailbox site rcpt.1 ∧
      data = text := by
  unfold deliver at h
  split at h
  · simp at h
  · next huser =>
    split at h
    · next hdomain =>
      split at h
      · simp only [List.mem_singleton, Effect.append.injEq] at h
        exact ⟨not_not.mp huser, hdomain, h.1, h.2⟩
      · simp at h
    · simp at h

/-- Only the end of a message appends, and only its text to mailboxes of its recipients. -/
theorem append_mem_process {site : Site} {around : Surroundings} {s : Session}
    {line path data : Bytes} (h : .append path data ∈ (process site around s line).effects) :
    s.dataMode = true ∧ data = s.data ∧ ∃ user ∈ site.localhostUsers,
      path = mailbox site user ∧ (user, lit "localhost") ∈ s.rcptTo := by
  have hprocessed := processed site around s line
  generalize process site around s line = outcome at h hprocessed
  cases hprocessed with
  | finished hmode hdot =>
    rcases List.mem_append.mp h with hdeliver | hsend
    · obtain ⟨⟨rcpt, i⟩, hmem, happend⟩ := List.mem_flatMap.mp hdeliver
      obtain ⟨huser, hdomain, hpath, hdata⟩ := append_mem_deliver happend
      refine ⟨hmode, hdata, rcpt.1, huser, hpath, ?_⟩
      rw [← hdomain]
      exact List.fst_mem_of_mem_zipIdx hmem
    · simp at hsend
  | text => simp at h
  | helo => simp [respond] at h
  | mail => simp [respond] at h
  | rcpt => simp [respond] at h
  | data => simp [respond] at h
  | reset => simp [respond] at h
  | noop => simp [respond] at h
  | refused => simp at h

/-- A `DATA` is only accepted with a recipient. -/
theorem rcptTo_ne_nil_of_accepted {site : Site} {around : Surroundings} {s : Session}
    {line : Bytes} (hline : commandOf line = .data)
    (h : (process site around s line).effects = [.send (lit "354 Accepting data.\r\n")]) :
    s.rcptTo ≠ [] := by
  have hok : ok ≠ lit "354 Accepting data.\r\n" := by decide
  have hprocessed := processed site around s line
  generalize process site around s line = outcome at h hprocessed
  cases hprocessed with
  | data hmode hcommand hrcpt => exact hrcpt
  | text => simp at h
  | finished hmode hdot =>
    have hlast : Effect.send ok ∈ (finishMessage site around s).effects :=
      List.mem_append_right _ (List.mem_singleton_self _)
    rw [h, List.mem_singleton, Effect.send.injEq] at hlast
    exact absurd hlast hok
  | helo hmode argument response hcommand => cases hline.symm.trans hcommand
  | mail => simp [respond, hok] at h
  | rcpt => simp [respond, hok] at h
  | reset => simp [respond, hok] at h
  | noop => simp [respond, hok] at h
  | refused hmode response quit hok hdata => simp [hdata] at h

/-! ## The protocol -/

/-- A `HELO`, a `MAIL FROM` and an `RCPT TO`, accepted in this order. -/
def InOrder (xs : List Exchange) : Prop :=
  ∃ h m r, [h, m, r].Sublist xs ∧ h.AcceptedHelo ∧ (∃ user domain, m.AcceptedMail user domain) ∧
    ∃ user domain, r.AcceptedRcpt user domain

/-- The path is the mailbox of a local user who was accepted as a recipient. -/
def Confined (site : Site) (before : List Exchange) (path : Bytes) : Prop :=
  ∃ user ∈ site.localhostUsers, path = mailbox site user ∧
    ∃ r ∈ before, r.AcceptedRcpt user (lit "localhost")

theorem Tracks.inOrder {s : Session} {xs : List Exchange} (h : Tracks s xs) (hne : s.rcptTo ≠ []) :
    InOrder xs := by
  obtain ⟨rcpt, hmem⟩ := List.exists_mem_of_ne_nil _ hne
  obtain ⟨hello, mail, r, hsub, hhello, hmail, hrcpt⟩ := h.rcpts rcpt hmem
  exact ⟨hello, mail, r, hsub, hhello, ⟨_, _, hmail⟩, _, _, hrcpt⟩

/-- Whatever lines a client sends, `DATA` is accepted only after `HELO`, `MAIL FROM` and `RCPT TO`,
a message has a sender and a recipient, and only mailboxes of accepted local recipients are
written. -/
theorem session_protocol (site : Site) (events : List (Bytes × Surroundings)) :
    let c := converse site events
    (∀ before x after, c.past = before ++ x :: after → x.AcceptedData →
      InOrder (sinceReset before)) ∧
    (c.session.dataMode = true → c.session.rcptTo ≠ [] ∧ Address c.session.mailFromUser ∧
      Address c.session.mailFromDomain) ∧
    ∀ before x after, c.past = before ++ x :: after → ∀ path data,
      .append path data ∈ x.effects → Confined site before path := by
  intro c
  have hreach := reaches_converse site events
  have htracks := reaches_tracks hreach
  refine ⟨?_, ?_, ?_⟩
  · apply reaches_every (P := fun before x ↦ x.AcceptedData → InOrder (sinceReset before)) hreach
    intro c event hc _ haccepted
    exact (reaches_tracks hc).inOrder (rcptTo_ne_nil_of_accepted haccepted.1 haccepted.2)
  · intro hmode
    have hne := htracks.mode hmode
    exact ⟨hne, (htracks.sender (htracks.named hne)).addresses⟩
  · apply reaches_every (P := fun before x ↦ ∀ path data, .append path data ∈ x.effects →
      Confined site before path) hreach
    intro c event hc _ path data happend
    obtain ⟨-, -, user, huser, hpath, hmem⟩ := append_mem_process happend
    obtain ⟨_, _, r, hsub, -, -, hrcpt⟩ := (reaches_tracks hc).rcpts _ hmem
    have hin : r ∈ sinceReset c.past := hsub.subset (by simp)
    exact ⟨user, huser, hpath, r, (since_suffix c.past).mem hin, hrcpt⟩

end PennCloud.Webmail.Protocol
