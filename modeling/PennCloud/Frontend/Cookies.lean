import PennCloud.Frontend.HttpText

/-!
# Cookies of a request

A browser sends its cookies in one header. The frontend searches that header for the key of the session
cookie and takes everything behind it, so it reads the identifier of the session only from the
last cookie, and only if the key is nowhere in front.
-/

open PennCloud.Library.CppString PennCloud.Library.TextSearch PennCloud.KV.TabletCells
open PennCloud.Frontend.KVClient PennCloud.Frontend.HttpText

namespace PennCloud.Frontend.Cookies

/-- An identifier that `generate_session_id` makes. -/
structure SessionId where
  text : Bytes
  length : text.length = 32
  digits : ∀ b ∈ text, b ∈ lit "0123456789abcdef"

structure Cookie where
  name : Bytes
  value : Bytes
  other : name ≠ lit "session_id"
  plainName : ∀ b ∈ name, b ≠ 59 ∧ b ≠ 32 ∧ b ≠ 61
  plainValue : ∀ b ∈ value, b ≠ 59 ∧ b ≠ 32

/-- The cookies of a browser in the order in which it sends them. -/
structure Jar where
  front : List Cookie
  session : Option SessionId
  back : List Cookie

def sessionIdKey : Bytes := lit "session_id="

def Cookie.text (cookie : Cookie) : Bytes := cookie.name ++ lit "=" ++ cookie.value

def sessionText (id : SessionId) : Bytes := sessionIdKey ++ id.text

def Jar.texts (jar : Jar) : List Bytes :=
  jar.front.map Cookie.text ++ (jar.session.map sessionText).toList ++ jar.back.map Cookie.text

def Jar.header (jar : Jar) : Bytes := join jar.texts (lit "; ")

/-- The identifier of the session, or nothing. -/
def Jar.sid (jar : Jar) : Bytes := (jar.session.map SessionId.text).getD []

/-- The key is in no cookie but the last, which is that of the session or has nothing behind the key. -/
structure Jar.Readable (jar : Jar) : Prop where
  others : ∀ text ∈ jar.texts.dropLast, ¬sessionIdKey <:+: text
  last : if jar.session.isSome then jar.back = []
    else ∀ text ∈ jar.texts.getLast?, ¬sessionIdKey <:+: text.dropLast

/-! ## Behind the key -/

theorem getCookieFromHeader_eq {headers : StringMap} {header : Bytes}
    (h : headers.lookup (lit "Cookie") = some header) :
    getCookieFromHeader headers = (behind? sessionIdKey header).getD [] := by
  unfold getCookieFromHeader behind?
  rw [h]
  dsimp only
  rw [show lit "session_id=" = sessionIdKey from rfl]
  cases find? sessionIdKey header with
  | none => rfl
  | some p => rfl

theorem behind?_append (text rest : Bytes) :
    behind? sessionIdKey (text ++ lit "; " ++ rest) =
      ((behind? sessionIdKey text).map (· ++ lit "; " ++ rest)).or (behind? sessionIdKey rest) := by
  have hne : sessionIdKey ≠ [] := by decide
  have hblank : behind? sessionIdKey (32 :: rest) = behind? sessionIdKey rest := by
    have hnone : behind? sessionIdKey [] = none := by decide
    have hcons := behind?_append_cons (d := 32) (by decide) hne [] rest
    rw [hnone] at hcons
    exact hcons
  have hlit : ∀ front : Bytes, front ++ lit "; " ++ rest = front ++ 59 :: 32 :: rest := by
    intro front
    rw [List.append_assoc]
    rfl
  rw [hlit, behind?_append_cons (by decide) hne, hblank]
  simp only [hlit]

/-- Cookies without the key are skipped. -/
theorem behind?_header_of_not_isInfix {texts : List Bytes} {last : Bytes}
    (h : ∀ text ∈ texts, ¬sessionIdKey <:+: text) :
    behind? sessionIdKey (join (texts ++ [last]) (lit "; ")) = behind? sessionIdKey last := by
  rw [join_concat]
  induction texts with
  | nil => rfl
  | cons text texts ih =>
    obtain ⟨htext, htexts⟩ := List.forall_mem_cons.mp h
    rw [List.map_cons, List.flatten_cons, List.append_assoc, behind?_append,
      behind?_eq_none_iff.mpr htext, ih htexts]
    rfl

/-- Behind the key in a cookie that is not the last one, there is a delimiter. -/
theorem mem_behind?_header {texts : List Bytes} {last : Bytes}
    (h : ∃ text ∈ texts, sessionIdKey <:+: text) :
    59 ∈ (behind? sessionIdKey (join (texts ++ [last]) (lit "; "))).getD [] := by
  rw [join_concat]
  induction texts with
  | nil =>
    obtain ⟨text, htext, -⟩ := h
    exact absurd htext List.not_mem_nil
  | cons text texts ih =>
    rw [List.map_cons, List.flatten_cons, List.append_assoc, behind?_append]
    cases hfound : behind? sessionIdKey text with
    | some found =>
      rw [Option.map_some, Option.some_or, Option.getD_some]
      exact List.mem_append_left _ (List.mem_append_right found List.mem_cons_self)
    | none =>
      rw [Option.map_none, Option.none_or]
      apply ih
      obtain ⟨other, hother, hwithin⟩ := h
      rcases List.mem_cons.mp hother with rfl | htail
      · exact absurd hwithin (behind?_eq_none_iff.mp hfound)
      · exact ⟨other, htail, hwithin⟩

/-! ## The identifier -/

theorem not_mem_sid (jar : Jar) : 59 ∉ jar.sid := by
  unfold Jar.sid
  cases jar.session with
  | none => exact List.not_mem_nil
  | some id =>
    intro hmem
    have hdigit := id.digits 59 hmem
    revert hdigit
    decide

/-- The last cookie decides where the key is in no other one. -/
theorem behind?_last_iff {jar : Jar} {texts : List Bytes} {last : Bytes}
    (htexts : jar.texts = texts ++ [last]) (h : ∀ text ∈ texts, ¬sessionIdKey <:+: text) :
    (behind? sessionIdKey last).getD [] = jar.sid ↔
      if jar.session.isSome then jar.back = []
      else ∀ text ∈ jar.texts.getLast?, ¬sessionIdKey <:+: text.dropLast := by
  obtain ⟨front, session, back⟩ := jar
  cases session with
  | none =>
    have hlast : ∀ text ∈ (texts ++ [last]).getLast?, text = last := by
      intro text htext
      rw [List.getLast?_concat] at htext
      exact (Option.some.inj htext).symm
    have hne : (behind? sessionIdKey last).getD [] ≠ [] ↔ sessionIdKey <:+: last.dropLast :=
      behind?_ne_nil_iff (by decide)
    rw [htexts, if_neg (by simp)]
    constructor
    · intro hnil text htext hwithin
      rw [hlast text htext] at hwithin
      exact hne.mpr hwithin hnil
    · intro hplain
      by_contra hsome
      exact hplain last List.getLast?_concat (hne.mp hsome)
  | some id =>
    rw [if_pos (by exact rfl)]
    rcases List.eq_nil_or_concat' back with rfl | ⟨back, other, rfl⟩
    · have hlast : last = sessionText id := by
        rw [Jar.texts, List.map_nil, List.append_nil] at htexts
        exact (List.cons.inj (List.append_inj' htexts rfl).2).1.symm
      rw [hlast, sessionText, behind?_append_left]
      exact iff_of_true rfl rfl
    · have hfront : texts = front.map Cookie.text ++ [sessionText id] ++ back.map Cookie.text := by
        rw [Jar.texts, List.map_append, ← List.append_assoc] at htexts
        exact (List.append_inj' htexts rfl).1.symm
      refine absurd (List.prefix_append sessionIdKey id.text).isInfix (h (sessionText id) ?_)
      rw [hfront]
      exact List.mem_append_left _ (List.mem_append_right _ (List.mem_singleton_self _))

/-- The identifier of the session is read exactly if the key is nowhere else and nothing follows. -/
theorem getCookieFromHeader_iff {headers : StringMap} {jar : Jar}
    (h : headers.lookup (lit "Cookie") = some jar.header) :
    getCookieFromHeader headers = jar.sid ↔ jar.Readable := by
  rw [getCookieFromHeader_eq h, Jar.header]
  rcases List.eq_nil_or_concat' jar.texts with htexts | ⟨texts, last, htexts⟩
  · rw [htexts]
    obtain ⟨front, session, back⟩ := jar
    cases session with
    | none =>
      refine iff_of_true rfl ⟨?_, ?_⟩
      · rw [htexts]
        exact fun _ htext ↦ absurd htext List.not_mem_nil
      · rw [htexts, if_neg (by simp)]
        exact fun _ htext ↦ absurd htext (Option.not_mem_none _)
    | some id =>
      have hmem : sessionText id ∈ Jar.texts ⟨front, some id, back⟩ :=
        List.mem_append_left _ (List.mem_append_right _ (List.mem_singleton_self _))
      rw [htexts] at hmem
      exact absurd hmem List.not_mem_nil
  · by_cases hothers : ∀ text ∈ texts, ¬sessionIdKey <:+: text
    · rw [htexts, behind?_header_of_not_isInfix hothers, behind?_last_iff htexts hothers]
      refine ⟨fun hlast ↦ ⟨?_, hlast⟩, fun hreadable ↦ hreadable.last⟩
      rwa [htexts, List.dropLast_concat]
    · refine iff_of_false (fun heq ↦ ?_) fun hreadable ↦ hothers ?_
      · push Not at hothers
        apply not_mem_sid jar
        rw [← heq, htexts]
        exact mem_behind?_header hothers
      · have hreadable := hreadable.others
        rwa [htexts, List.dropLast_concat] at hreadable

/-- The session of the examples. -/
def zeroSession : SessionId where
  text := List.replicate 32 48
  length := List.length_replicate
  digits := by decide +kernel

def darkTheme : Cookie where
  name := lit "theme"
  value := lit "dark"
  other := by decide +kernel
  plainName := by decide +kernel
  plainValue := by decide +kernel

def headersOf (jar : Jar) : StringMap := (∅ : StringMap).insert (lit "Cookie") jar.header

theorem getCookieFromHeader_iff_last :
    getCookieFromHeader (headersOf ⟨[darkTheme], some zeroSession, []⟩) = zeroSession.text :=
  (getCookieFromHeader_iff (AList.lookup_insert _)).mpr ⟨by decide +kernel, rfl⟩

/-- A cookie behind that of the session is read with it. -/
theorem getCookieFromHeader_reads_on :
    ¬∀ (jar : Jar) (headers : StringMap), headers.lookup (lit "Cookie") = some jar.header →
      getCookieFromHeader headers = jar.sid := by
  intro h
  have hsid := h ⟨[], some zeroSession, [darkTheme]⟩ _ (AList.lookup_insert ∅)
  revert hsid
  decide +kernel

end PennCloud.Frontend.Cookies
