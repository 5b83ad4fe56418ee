import PennCloud.KV.TabletCells
import PennCloud.Loadbalancer.Selection
import PennCloud.Library.CppString

/-!
# The redirect

`handle_client` sends the client on to the selected front end. It looks for the path behind the
third slash of the request's second word, as in a full URL. The target of a request has no host in
front: with one slash the search wraps around and takes all of it, with more it loses the path.
-/

open PennCloud.KV.TabletCells PennCloud.Library.CppString
open PennCloud.Loadbalancer.Selection

namespace PennCloud.Loadbalancer.Redirect

/-! ## Words -/

def splitStep (delimiter : UInt8) (s : List Bytes × Bytes) (ch : UInt8) : List Bytes × Bytes :=
  if ch = delimiter then (if s.2 ≠ [] then s.1 ++ [s.2] else s.1, [])
  else (s.1, s.2 ++ [ch])

/-- `LoadBalancer::split`: empty tokens are dropped. -/
def split (str : Bytes) (delimiter : UInt8) : List Bytes :=
  let (tokens, token) := str.foldl (splitStep delimiter) ([], [])
  if token ≠ [] then tokens ++ [token] else tokens

theorem foldl_splitStep_word {d : UInt8} {word : Bytes} (h : d ∉ word) (s : List Bytes × Bytes) :
    word.foldl (splitStep d) s = (s.1, s.2 ++ word) := by
  induction word generalizing s with
  | nil => rw [List.foldl_nil, List.append_nil]
  | cons ch word ih =>
    rw [List.mem_cons, not_or] at h
    rw [List.foldl_cons, ih h.2, splitStep, if_neg (Ne.symm h.1), List.append_assoc]
    rfl

/-- Tokens that are there stay in front. -/
theorem foldl_splitStep_tokens (d : UInt8) (tokens : List Bytes) (s : List Bytes × Bytes)
    (str : Bytes) :
    str.foldl (splitStep d) (tokens ++ s.1, s.2) =
      (tokens ++ (str.foldl (splitStep d) s).1, (str.foldl (splitStep d) s).2) := by
  induction str generalizing s with
  | nil => rfl
  | cons ch str ih =>
    have hstep : splitStep d (tokens ++ s.1, s.2) ch =
        (tokens ++ (splitStep d s ch).1, (splitStep d s ch).2) := by
      unfold splitStep
      split
      · split
        · rw [List.append_assoc]
        · rfl
      · rfl
    rw [List.foldl_cons, List.foldl_cons, hstep, ih]

theorem split_word {d : UInt8} {word : Bytes} (h : d ∉ word) (hne : word ≠ []) :
    split word d = [word] := by
  rw [split, foldl_splitStep_word h]
  exact if_pos hne

theorem split_word_cons {d : UInt8} {word : Bytes} (h : d ∉ word) (hne : word ≠ [])
    (rest : Bytes) : split (word ++ d :: rest) d = word :: split rest d := by
  have hfirst : splitStep d ([], word) d = ([word] ++ [], []) := by
    rw [splitStep, if_pos rfl, if_pos hne]
    rfl
  have hword : (word ++ d :: rest).foldl (splitStep d) ([], []) =
      ([word] ++ (rest.foldl (splitStep d) ([], [])).1,
        (rest.foldl (splitStep d) ([], [])).2) := by
    rw [List.foldl_append, foldl_splitStep_word h, List.nil_append, List.foldl_cons, hfirst]
    exact foldl_splitStep_tokens d [word] ([], []) rest
  rw [split, hword, split]
  dsimp only
  split
  · rfl
  · rfl

/-! ## The path -/

def slash : UInt8 := 47

/-- `pos + 1`; behind `npos` comes 0. -/
def behind (pos : ℕ) : ℕ := (pos + 1) % 2 ^ 64

/-- The path from the third slash on, where there is one. -/
def pathOf (url : Bytes) : Bytes :=
  let pos := findFrom url slash (behind (findFrom url slash (behind (findFrom url slash 0))))
  if pos ≠ npos then url.drop pos else lit "/"

theorem findFrom_slash (rest : Bytes) : findFrom (slash :: rest) slash 0 = 0 :=
  @findFrom_of_drop (slash :: rest) [] rest slash 0 rfl List.not_mem_nil

/-- A single slash at the start: the third search begins at the start again. -/
theorem pathOf_one {rest : Bytes} (h : slash ∉ rest) : pathOf (slash :: rest) = slash :: rest := by
  have hsecond : findFrom (slash :: rest) slash (behind 0) = npos := findFrom_of_not_mem h
  have hwrap : behind npos = 0 := by decide
  rw [pathOf, findFrom_slash, hsecond, hwrap, findFrom_slash]
  exact if_pos (by decide)

theorem le_findFrom (url : Bytes) {pos : ℕ} (h : findFrom url slash pos ≠ npos) :
    pos ≤ findFrom url slash pos := by
  unfold findFrom at h ⊢
  split at h
  · exact Nat.le_add_right _ _
  · exact absurd rfl h

/-- With a second slash the path is lost or begins later. -/
theorem length_pathOf_lt {front rest : Bytes} (h : slash ∉ front)
    (hlen : (slash :: (front ++ slash :: rest)).length < 2 ^ 64) :
    (pathOf (slash :: (front ++ slash :: rest))).length <
      (slash :: (front ++ slash :: rest)).length := by
  have hlength : (slash :: (front ++ slash :: rest)).length = front.length + rest.length + 2 := by
    simp only [List.length_cons, List.length_append]
    omega
  have hsecond : findFrom (slash :: (front ++ slash :: rest)) slash (behind 0) =
      1 + front.length :=
    @findFrom_of_drop (slash :: (front ++ slash :: rest)) front rest slash 1 rfl h
  have hbehind : behind (1 + front.length) = front.length + 2 := by
    rw [behind, Nat.mod_eq_of_lt (by omega)]
    omega
  rw [pathOf, findFrom_slash, hsecond, hbehind]
  split
  · next hfound =>
    have hle := le_findFrom _ hfound
    rw [List.length_drop, hlength]
    omega
  · rw [hlength]
    exact Nat.lt_add_left _ (by decide)

/-- The path of a target is the target where it has no other slash than its first character. -/
theorem pathOf_eq_iff {rest : Bytes} (hlen : (slash :: rest).length < 2 ^ 64) :
    pathOf (slash :: rest) = slash :: rest ↔ slash ∉ rest := by
  constructor
  · intro h hin
    obtain ⟨front, behind, rfl, hfront⟩ := List.eq_append_cons_of_mem hin
    have hlt := length_pathOf_lt hfront hlen
    rw [h] at hlt
    exact Nat.lt_irrefl _ hlt
  · exact pathOf_one

theorem length_pathOf_le {url : Bytes} (hne : url ≠ []) : (pathOf url).length ≤ url.length := by
  unfold pathOf
  dsimp only
  split
  · rw [List.length_drop]
    exact Nat.sub_le _ _
  · exact List.length_pos_iff.mpr hne

/-! ## The response -/

def redirectResponse (port : UInt16) (path : Bytes) : Bytes :=
  lit "HTTP/1.1 302 Found\r\n" ++
    (lit "Location: http://127.0.0.1:" ++ decimal port.toNat ++ path ++ lit "\r\n") ++
    lit "Connection: close\r\n\r\n"

/-- The second word of the first line. -/
def urlOf (rawRequest : Bytes) : Bytes :=
  (split ((split rawRequest 10).headD []) 32).getD 1 []

/-- Without any bytes from `recv` the port is selected for nothing. -/
def handleClient (lb : LoadBalancer) (rawRequest : Bytes) : LoadBalancer × Option Bytes :=
  let (lb, frontendPort) := getNextFrontendPort lb
  if rawRequest = [] then (lb, none)
  else (lb, some (redirectResponse frontendPort (pathOf (urlOf rawRequest))))

/-- `buffer_size - 1`. -/
def maxReceived : ℕ := 1023

theorem redirectResponse_inj {port : UInt16} {path target : Bytes} :
    redirectResponse port path = redirectResponse port target ↔ path = target := by
  simp [redirectResponse]

/-- The first token of the first bytes. -/
theorem head_split_take {d : UInt8} {word : Bytes} (hword : d ∉ word) (hne : word ≠ [])
    (rest : Bytes) (n : ℕ) : (split ((word ++ d :: rest).take n) d).headD [] = word.take n := by
  cases n with
  | zero => rfl
  | succ n =>
    have hmem : d ∉ word.take (n + 1) := fun hin ↦ hword (List.mem_of_mem_take hin)
    have htake : word.take (n + 1) ≠ [] := by
      rw [Ne, List.take_eq_nil_iff]
      exact not_or.mpr ⟨Nat.succ_ne_zero n, hne⟩
    rw [List.take_append]
    cases n + 1 - word.length with
    | zero =>
      rw [List.take_zero, List.append_nil, split_word hmem htake]
      rfl
    | succ m =>
      rw [List.take_succ_cons, split_word_cons hmem htake]
      rfl

/-- The second word of a line that was cut off. -/
theorem second_split_take {method target : Bytes} (hmethod : 32 ∉ method)
    (hmethodNe : method ≠ []) (htarget : 32 ∉ target) (htargetNe : target ≠ []) (version : Bytes)
    (n : ℕ) : (split ((method ++ 32 :: (target ++ 32 :: version)).take n) 32).getD 1 [] =
      target.take (n - (method.length + 1)) := by
  rcases Nat.lt_or_ge method.length n with hlong | hshort
  · obtain ⟨k, rfl⟩ := Nat.exists_eq_add_of_lt hlong
    have htake : (method ++ 32 :: (target ++ 32 :: version)).take (method.length + k + 1) =
        method ++ 32 :: (target ++ 32 :: version).take k := by
      rw [Nat.add_assoc, List.take_length_add_append, List.take_succ_cons]
    have hsecond := head_split_take htarget htargetNe version k
    rw [htake, split_word_cons hmethod hmethodNe, List.getD_cons_succ,
      show method.length + k + 1 - (method.length + 1) = k by omega, ← hsecond]
    cases split ((target ++ 32 :: version).take k) 32 with
    | nil => rfl
    | cons token tokens => rfl
  · have hmem : 32 ∉ method.take n := fun hin ↦ hmethod (List.mem_of_mem_take hin)
    rw [List.take_append_of_le_length hshort, Nat.sub_eq_zero_of_le (by omega), List.take_zero]
    by_cases hnil : method.take n = []
    · rw [hnil]
      rfl
    · rw [split_word hmem hnil]
      rfl

/-- What `handle_client` takes for the URL. -/
theorem urlOf_take {method target version : Bytes}
    (hmethod : 32 ∉ method ∧ 10 ∉ method ∧ method ≠ [])
    (htarget : 32 ∉ target ∧ 10 ∉ target ∧ target ≠ []) (hversion : 10 ∉ version) (rest : Bytes)
    (n : ℕ) :
    urlOf ((method ++ 32 :: (target ++ 32 :: version) ++ 10 :: rest).take n) =
      target.take (n - (method.length + 1)) := by
  have hline : 10 ∉ method ++ 32 :: (target ++ 32 :: version) := by
    have hspace : (10 : UInt8) ≠ 32 := by decide
    simp [hmethod.2.1, htarget.2.1, hversion, hspace]
  rw [urlOf, head_split_take hline (by simp)]
  exact second_split_take hmethod.1 hmethod.2.2 htarget.1 htarget.2.2 version n

theorem pathOf_take_iff {target : Bytes} {k : ℕ} (hk : k < 2 ^ 64) :
    pathOf ((slash :: target).take k) = slash :: target ↔
      slash ∉ target ∧ ((slash :: target).length ≤ k ∨ target = []) := by
  rcases Nat.lt_or_ge k (slash :: target).length with hshort | hall
  · rcases Nat.eq_zero_or_pos k with rfl | hpos
    · have hnothing : pathOf [] = [slash] := by decide +kernel
      rw [List.take_zero, hnothing]
      constructor
      · intro h
        obtain rfl := (List.cons.inj h).2
        exact ⟨List.not_mem_nil, .inr rfl⟩
      · rintro ⟨-, hle | rfl⟩
        · exact absurd hle (Nat.not_le.mpr hshort)
        · rfl
    · refine iff_of_false ?_ ?_
      · intro h
        have hne : (slash :: target).take k ≠ [] := by
          rw [Ne, List.take_eq_nil_iff]
          exact not_or.mpr ⟨by omega, List.cons_ne_nil _ _⟩
        have hle := length_pathOf_le hne
        rw [h, List.length_take] at hle
        omega
      · rintro ⟨-, hle | rfl⟩
        · exact absurd hle (Nat.not_le.mpr hshort)
        · exact absurd hpos (Nat.not_lt.mpr (Nat.le_of_lt_succ hshort))
  · rw [List.take_of_length_le hall, pathOf_eq_iff (by omega)]
    exact (and_iff_left (.inl hall)).symm

/-- Whatever part of the request `recv` returns, the client is sent on to exactly the target if and
only if this has no slash but the first one and has arrived whole; nothing is needed of `/`. -/
theorem redirect_keeps_target_iff (lb : LoadBalancer) (method target version rest : Bytes)
    (hmethod : 32 ∉ method ∧ 10 ∉ method ∧ method ≠ [])
    (htarget : 32 ∉ slash :: target ∧ 10 ∉ slash :: target) (hversion : 10 ∉ version) (n : ℕ)
    (hn : 0 < n ∧ n ≤ maxReceived) :
    (handleClient lb ((method ++ 32 :: (slash :: target ++ 32 :: version) ++ 10 :: rest).take n)).2 =
        some (redirectResponse (getNextFrontendPort lb).2 (slash :: target)) ↔
      slash ∉ target ∧ (method.length + 1 + (slash :: target).length ≤ n ∨ target = []) := by
  have hreceived :
      (method ++ 32 :: (slash :: target ++ 32 :: version) ++ 10 :: rest).take n ≠ [] := by
    rw [Ne, List.take_eq_nil_iff]
    exact not_or.mpr ⟨by omega, by simp⟩
  have hbound : n ≤ 1023 := hn.2
  have hwhole : (slash :: target).length ≤ n - (method.length + 1) ↔
      method.length + 1 + (slash :: target).length ≤ n := by
    rw [List.length_cons]
    omega
  rw [handleClient]
  dsimp only
  rw [if_neg hreceived, Option.some.injEq, redirectResponse_inj,
    urlOf_take hmethod ⟨htarget.1, htarget.2, List.cons_ne_nil _ _⟩ hversion,
    pathOf_take_iff (by omega), hwhole]

/-- `GET /login HTTP/1.1`. -/
theorem redirect_keeps_login :
    (handleClient .init ((lit "GET" ++ 32 :: (slash :: lit "login" ++ 32 :: lit "HTTP/1.1\r") ++
        10 :: lit "\r\n").take 100)).2 =
      some (redirectResponse (getNextFrontendPort .init).2 (slash :: lit "login")) :=
  (redirect_keeps_target_iff .init (lit "GET") (lit "login") (lit "HTTP/1.1\r") (lit "\r\n")
    (by decide +kernel) (by decide +kernel) (by decide +kernel) 100 (by decide +kernel)).mpr
    (by decide +kernel)

/-- A path with two slashes is lost. -/
theorem redirect_loses_nested_path :
    (handleClient .init (lit "GET /storage/file HTTP/1.1\r\n\r\n")).2 =
        some (redirectResponse port0 (lit "/")) ∧
      redirectResponse port0 (lit "/") ≠
        redirectResponse (getNextFrontendPort .init).2 (lit "/storage/file") := by
  decide +kernel

end PennCloud.Loadbalancer.Redirect
