import PennCloud.Frontend.Routing
import PennCloud.Frontend.Uploads

/-!
# Receiving a request

`handle_client` calls `recv` once and takes what it gets for the request. A request longer than the
buffer, or one that arrives in several segments, is cut; an upload is then answered as a success
with only the beginning of the file stored.
-/

open PennCloud.Library.CppString PennCloud.Library.TextSearch PennCloud.Library.Programs
open PennCloud.KV.TabletCells PennCloud.Frontend.KVClient PennCloud.Frontend.HttpText
open PennCloud.Frontend.Storage PennCloud.Frontend.Routing PennCloud.Frontend.Uploads

namespace PennCloud.Frontend.Reception

def bufferSize : ℕ := 4096

/-- The segments in which a connection delivers a text. -/
structure Delivery (text : Bytes) where
  segments : List Bytes
  nonempty : ∀ segment ∈ segments, segment ≠ []
  arrives : segments.flatten = text

/-- One call of `recv`; nothing is received from a closed connection. -/
def recv (size : ℕ) (segments : List Bytes) : Bytes :=
  match segments with
  | segment :: _ => segment.take size
  | [] => []

/-- The string that `handle_client` builds, if `recv` succeeds. -/
def receivedRequest (segments : List Bytes) : Option Bytes :=
  let rawRequest := recv (bufferSize - 1) segments
  if rawRequest = [] then none else some rawRequest

def handleClient (disk : Disk) (currentDir drawn : Bytes) (fe : Server) (segments : List Bytes) :
    Option (KVJob Answered) :=
  (receivedRequest segments).map (handleRequest disk currentDir drawn fe)

/-- The chunks of the uploaded file make up the body. -/
def StoresBody (user : Bytes) (store : Store) (body : Bytes) : Prop :=
  ∃ chunks : List Bytes, chunks.flatten = body ∧
    ∀ n chunk, chunks[n]? = some chunk →
      store (fileRow user (lit "untitled"), chunkKey n) = some chunk

/-- The frontend handles the whole request, and an upload that it confirms has stored the body. -/
structure SeesWhole (user : Bytes) (store : Store) {request : Bytes} (d : Delivery request) :
    Prop where
  whole : receivedRequest d.segments = some request
  uploads : ∀ rawRequest store' response, receivedRequest d.segments = some rawRequest →
    (handleUploadFile user rawRequest 0).run (execute ()) store = (store', .ok (.done response)) →
    response.content = lit "Successfully uploaded file" →
    StoresBody user store' (parseBody request).2

/-! ## Segments -/

theorem receivedRequest_eq_iff {request : Bytes} (d : Delivery request) :
    receivedRequest d.segments = some request ↔
      d.segments = [request] ∧ request.length < bufferSize := by
  obtain ⟨segments, hnonempty, harrives⟩ := d
  dsimp only
  cases segments with
  | nil =>
    refine iff_of_false ?_ ?_
    · exact fun h ↦ Option.some_ne_none _ h.symm
    · exact fun h ↦ absurd h.1 (List.cons_ne_nil _ _).symm
  | cons segment rest =>
    have hsegment := hnonempty segment List.mem_cons_self
    have hne : segment.take (bufferSize - 1) ≠ [] := by
      intro htake
      rcases List.take_eq_nil_iff.mp htake with hzero | hnil
      · exact absurd hzero (by decide)
      · exact hsegment hnil
    have hreceived : receivedRequest (segment :: rest) = some (segment.take (bufferSize - 1)) :=
      if_neg hne
    rw [hreceived, Option.some.injEq]
    have hlength := congrArg List.length harrives
    rw [List.flatten_cons, List.length_append] at hlength
    constructor
    · intro htake
      have htakeLength := congrArg List.length htake
      rw [List.length_take] at htakeLength
      have hrest : rest.flatten.length = 0 := by omega
      have hempty : rest = [] := by
        rw [List.eq_nil_iff_forall_not_mem]
        intro other hother
        have hnil := List.flatten_eq_nil_iff.mp (List.length_eq_zero_iff.mp hrest) other hother
        exact hnonempty other (List.mem_cons_of_mem _ hother) hnil
      subst hempty
      have hsame : segment = request := by simpa using harrives
      refine ⟨by rw [hsame], ?_⟩
      rw [bufferSize] at htakeLength ⊢
      omega
    · rintro ⟨hcons, hshort⟩
      obtain ⟨rfl, -⟩ := List.cons.inj hcons
      exact List.take_of_length_le (Nat.le_sub_one_of_lt hshort)

/-! ## Short uploads -/

theorem length_parseBody_le (rawRequest : Bytes) :
    (parseBody rawRequest).2.length ≤ rawRequest.length := by
  unfold parseBody
  split
  · rw [List.length_drop]
    exact Nat.sub_le _ _
  · exact Nat.zero_le _

theorem fits_of_short {rawRequest : Bytes} (h : rawRequest.length < bufferSize) :
    FitsInt (parseBody rawRequest).2 := by
  have hbody := length_parseBody_le rawRequest
  rw [bufferSize] at h
  unfold FitsInt segmentSize intMax
  omega

theorem storesBody_storeUpload (user : Bytes) {body : Bytes} (h : FitsInt body) (store : Store) :
    StoresBody user (storeUpload user body store) body := by
  refine ⟨(List.range (chunkCount body.length)).map (segmentOf body), flatten_segments h, ?_⟩
  intro n chunk hchunk
  rw [List.getElem?_map, Option.map_eq_some_iff] at hchunk
  obtain ⟨m, hm, rfl⟩ := hchunk
  obtain ⟨hlt, hget⟩ := List.getElem?_eq_some_iff.mp hm
  rw [List.getElem_range] at hget
  subst hget
  rw [List.length_range] at hlt
  exact storeUpload_segment user store hlt

/-- An upload alone that reports success has stored its body. -/
theorem run_handleUploadFile {user rawRequest : Bytes} (h : FitsInt (parseBody rawRequest).2)
    {store store' : Store} {response : Response}
    (hrun : (handleUploadFile user rawRequest 0).run (execute ()) store =
      (store', .ok (.done response)))
    (hsuccess : response.content = lit "Successfully uploaded file") :
    StoresBody user store' (parseBody rawRequest).2 := by
  have htry := run_uploadFileTry h user store
  unfold handleUploadFile once catchKVError at hrun
  rw [Prog.run_bind, Prog.run_handle, htry] at hrun
  by_cases hexists : lit "untitled" ∈ split ((store (user, lit "storage")).getD []) comma
  · rw [if_pos hexists] at hrun
    obtain ⟨-, hresponse⟩ := Prod.mk.inj hrun
    cases hresponse
    exact absurd hsuccess (by decide)
  · rw [if_neg hexists] at hrun
    obtain ⟨rfl, -⟩ := Prod.mk.inj hrun
    exact storesBody_storeUpload user h store

/-- The frontend sees the whole request exactly when it arrives in one piece that fits the buffer. -/
theorem seesWhole_iff (user : Bytes) (store : Store) {request : Bytes} (d : Delivery request) :
    SeesWhole user store d ↔ d.segments = [request] ∧ request.length < bufferSize := by
  rw [← receivedRequest_eq_iff]
  constructor
  · exact SeesWhole.whole
  · intro hwhole
    refine ⟨hwhole, fun rawRequest store' response hreceived hrun hsuccess ↦ ?_⟩
    obtain rfl := Option.some.inj (hwhole.symm.trans hreceived)
    have hshort := ((receivedRequest_eq_iff d).mp hwhole).2
    exact run_handleUploadFile (fits_of_short hshort) hrun hsuccess

/-! ## A request in two segments -/

def uploadHead : Bytes := lit "POST /uploadfile HTTP/1.1\r\nContent-Length: 5\r\n\r\n"

/-- The end of the body comes in a segment of its own. -/
def twoSegments : Delivery (uploadHead ++ lit "hello") where
  segments := [uploadHead ++ lit "he", lit "llo"]
  nonempty := by decide +kernel
  arrives := by decide +kernel

/-- An upload of five bytes is confirmed with two of them stored. -/
theorem upload_cut :
    (∃ rawRequest store' response, receivedRequest twoSegments.segments = some rawRequest ∧
      (handleUploadFile (lit "user") rawRequest 0).run (execute ()) (fun _ ↦ none) =
        (store', .ok (.done response)) ∧
      response.content = lit "Successfully uploaded file" ∧
      store' (fileRow (lit "user") (lit "untitled"), chunkKey 0) = some (lit "he")) ∧
    ¬SeesWhole (lit "user") (fun _ ↦ none) twoSegments := by
  have hreceived : receivedRequest twoSegments.segments = some (uploadHead ++ lit "he") := by
    decide +kernel
  have hbody : (parseBody (uploadHead ++ lit "he")).2 = lit "he" := by decide +kernel
  have hfits : FitsInt (lit "he") := by
    unfold FitsInt
    decide
  constructor
  · refine ⟨_, storeUpload (lit "user") (lit "he") fun _ ↦ none,
      corsOk (lit "Successfully uploaded file"), hreceived, ?_, rfl, ?_⟩
    · unfold handleUploadFile once catchKVError
      rw [hbody, Prog.run_bind, Prog.run_handle, run_uploadFileTry hfits, if_neg (by decide)]
      rfl
    · have hfirst : 0 < chunkCount (lit "he").length := (lt_chunkCount_iff hfits 0).mpr (by decide)
      have hsegment : segmentOf (lit "he") 0 = lit "he" := by
        rw [segmentOf, Nat.zero_mul, List.drop_zero]
        exact List.take_of_length_le (by decide)
      rw [storeUpload_segment (lit "user") _ hfirst, hsegment]
  · intro hsees
    have hsame := Option.some.inj (hreceived.symm.trans hsees.whole)
    exact absurd (List.append_cancel_left hsame) (by decide)

end PennCloud.Frontend.Reception
