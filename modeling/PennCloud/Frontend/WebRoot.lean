import PennCloud.Library.CBuffer
import PennCloud.Library.PathWalk
import PennCloud.Frontend.Routing

/-!
# Files that are served

The pages have fixed names under `webpages`, but an image is looked for at that directory's name
followed by the url of the request, whatever it is. The url stays in the directory if it begins with a
slash and never climbs, or if it comes down again by the names that it left.
-/

open PennCloud.Library PennCloud.Library.CppString PennCloud.Library.PathWalk
open PennCloud.Library.TextSearch
open PennCloud.Library.Programs PennCloud.KV.TabletCells PennCloud.Frontend.KVClient
open PennCloud.Frontend.HttpText PennCloud.Frontend.Routing

namespace PennCloud.Frontend.WebRoot

/-! ## Paths -/

/-- How a component of a path moves. -/
def component (name : Bytes) : Move Bytes :=
  if name = [] ∨ name = lit "." then .stay
  else if name = lit ".." then .up
  else .down name

def movesOf (pieces : List Bytes) : List (Move Bytes) := pieces.map component

/-- The names on the way from the root to an absolute path, `.` and `..` resolved lexically. -/
def resolve (path : Bytes) : List Bytes := walk [] (movesOf (path.splitOn slash))

/-- The directory with the pages of a frontend. -/
def webRoot (workingDir : Bytes) : Bytes := workingDir ++ lit "/webpages"

theorem resolve_append_slash (path more : Bytes) :
    resolve (path ++ slash :: more) = walk (resolve path) (movesOf (more.splitOn slash)) := by
  unfold resolve
  rw [List.splitOn_append_cons_self, movesOf, List.map_append, walk_append]
  rfl

theorem component_webpages (name : Bytes) :
    component (lit "webpages" ++ name) = .down (lit "webpages" ++ name) := by
  have hfirst : ∀ text, lit "webpages" ++ name = text → text.head? = some 119 := by
    rintro text rfl
    rfl
  unfold component
  rw [if_neg, if_neg]
  · intro heq
    cases hfirst _ heq
  · rintro (heq | heq)
    · cases hfirst _ heq
    · cases hfirst _ heq

/-- A name directly behind `webpages` becomes a part of that component. -/
theorem resolve_webRoot_append {url piece : Bytes} {pieces : List Bytes}
    (h : url.splitOn slash = piece :: pieces) (workingDir : Bytes) :
    resolve (webRoot workingDir ++ url) =
      walk (resolve workingDir ++ [lit "webpages" ++ piece]) (movesOf pieces) := by
  have hslash : slash ∉ lit "webpages" := by decide
  have hpath : webRoot workingDir ++ url = workingDir ++ slash :: (lit "webpages" ++ url) :=
    List.append_assoc _ _ _
  rw [hpath, resolve_append_slash, splitOn_append_of_not_mem hslash, h, List.modifyHead_cons,
    movesOf, List.map_cons, walk_cons, component_webpages]
  rfl

theorem resolve_webRoot (workingDir : Bytes) :
    resolve (webRoot workingDir) = resolve workingDir ++ [lit "webpages"] := by
  have hempty : ([] : Bytes).splitOn slash = [[]] := List.splitOn_nil slash
  have hroot := resolve_webRoot_append hempty workingDir
  rwa [List.append_nil, List.append_nil] at hroot

/-! ## The files of GET requests -/

/-- The outcome of the request depends on the file at this location. -/
def Opens (fe : Server) (url workingDir rawRequest : Bytes) (headers : StringMap)
    (location : Bytes) : Prop :=
  ∃ disk disk' : Disk, (∀ other, other ≠ location → disk other = disk' other) ∧
    handleGetRequests disk fe url workingDir rawRequest headers ≠
      handleGetRequests disk' fe url workingDir rawRequest headers

/-- The pages that have a route. -/
def pageNames : List Bytes :=
  [lit "homepage", lit "login", lit "register", lit "reset_password", lit "webmail", lit "storage"]

variable {fe : Server} {url workingDir rawRequest : Bytes} {headers : StringMap} {location : Bytes}

theorem handleGetRequests_image (h : contains url (lit "/images") = true) (disk : Disk) :
    handleGetRequests disk fe url workingDir rawRequest headers = once do
      let response ← ofStd (serveImage disk (webRoot workingDir ++ url))
      return (fe, response) := by
  have hlong : ¬(url.length ≤ 1 ∧ (url = lit "/" ∨ url = [])) := by
    rintro ⟨-, rfl | rfl⟩
    · revert h
      decide
    · revert h
      decide
  unfold handleGetRequests
  rw [if_neg hlong, if_pos h]
  rfl

theorem opens_image_iff (h : contains url (lit "/images") = true) :
    Opens fe url workingDir rawRequest headers location ↔ location = webRoot workingDir ++ url := by
  constructor
  · rintro ⟨disk, disk', hsame, hdiffer⟩
    by_contra hne
    rw [handleGetRequests_image h, handleGetRequests_image h, serveImage, serveImage,
      hsame _ (Ne.symm hne)] at hdiffer
    exact hdiffer rfl
  · rintro rfl
    refine ⟨fun _ ↦ none, fun other ↦ if other = webRoot workingDir ++ url then some [] else none,
      fun other hother ↦ (if_neg hother).symm, ?_⟩
    rw [handleGetRequests_image h, handleGetRequests_image h, serveImage, serveImage, if_pos rfl]
    intro heq
    have hpass := congrFun heq 0
    cases hpass

theorem opens_page (h : ¬contains url (lit "/images") = true)
    (hopens : Opens fe url workingDir rawRequest headers location) :
    ∃ name ∈ pageNames, location = webRoot workingDir ++ (slash :: (name ++ lit ".html")) := by
  by_contra hother
  obtain ⟨disk, disk', hsame, hdiffer⟩ := hopens
  apply hdiffer
  have hpage : ∀ name ∈ pageNames, webpage disk workingDir name = webpage disk' workingDir name := by
    intro name hname
    have hne : workingDir ++ lit "/webpages/" ++ name ++ lit ".html" ≠ location := by
      rintro rfl
      refine hother ⟨name, hname, ?_⟩
      have hslash : lit "/webpages/" = lit "/webpages" ++ [slash] := rfl
      simp only [webRoot, hslash, List.append_assoc, List.cons_append, List.nil_append]
    rw [webpage, webpage, serveWebpage, serveWebpage, hsame _ hne]
  have hbox : webpage disk workingDir
      (if contains url (lit "/webmail") = true then lit "webmail" else lit "storage") =
      webpage disk' workingDir
        (if contains url (lit "/webmail") = true then lit "webmail" else lit "storage") := by
    split
    · exact hpage _ (by decide)
    · exact hpage _ (by decide)
  unfold handleGetRequests
  simp only [if_neg h, hpage (lit "homepage") (by decide), hpage (lit "login") (by decide),
    hpage (lit "register") (by decide), hpage (lit "reset_password") (by decide), hbox]

/-- Every file that the request opens is below `webpages`; a path ends at its first zero byte. -/
def StaysInside (fe : Server) (url workingDir rawRequest : Bytes) (headers : StringMap) : Prop :=
  ∀ location, Opens fe url workingDir rawRequest headers location →
    resolve (webRoot workingDir) <+: resolve (CBuffer.content location)

/-- The way of a url, up to its first zero byte, behind the piece before its first slash. -/
def urlRoute (url : Bytes) : Route Bytes :=
  routeOf (movesOf ((CBuffer.content url).splitOn slash).tail)

/-- The url climbs and comes down by the names that it left, or does not climb and begins with a
slash. -/
structure ComesBack (root : List Bytes) (url : Bytes) : Prop where
  front : (urlRoute url).ups = 0 → ((CBuffer.content url).splitOn slash).head? = some []
  names : root.drop (root.length - (urlRoute url).ups) <+: (urlRoute url).names

theorem comesBack_iff (url workingDir : Bytes) :
    resolve (webRoot workingDir) <+: resolve (webRoot workingDir ++ CBuffer.content url) ↔
      ComesBack (resolve (webRoot workingDir)) url := by
  obtain ⟨piece, pieces, hpieces⟩ :=
    List.exists_cons_of_ne_nil (List.splitOn_ne_nil slash (CBuffer.content url))
  have hpiece : lit "webpages" ++ piece = lit "webpages" ↔ piece = [] := by simp
  have hroute : urlRoute url = routeOf (movesOf pieces) := by rw [urlRoute, hpieces, List.tail_cons]
  rw [resolve_webRoot_append hpieces, resolve_webRoot, prefix_walk_iff, hpiece]
  constructor
  · rintro ⟨hfront, hnames⟩
    constructor
    · rw [hroute, hpieces, List.head?_cons]
      intro hups
      rw [hfront hups]
    · rwa [hroute, List.length_append, List.length_singleton]
  · rintro ⟨hfront, hnames⟩
    rw [hroute, hpieces, List.head?_cons] at hfront
    rw [hroute, List.length_append, List.length_singleton] at hnames
    exact ⟨fun hups ↦ Option.some.inj (hfront hups), hnames⟩

/-- A page lies in the directory itself. -/
theorem pageNames_pieces : ∀ name ∈ pageNames, 0 ∉ slash :: (name ++ lit ".html") ∧
    (slash :: (name ++ lit ".html")).splitOn slash = [[], name ++ lit ".html"] ∧
    component (name ++ lit ".html") = .down (name ++ lit ".html") := by decide

/-- Exactly the urls of images have to come back. -/
theorem staysInside_iff {workingDir : Bytes} (h : 0 ∉ workingDir) (fe : Server)
    (url rawRequest : Bytes) (headers : StringMap) :
    StaysInside fe url workingDir rawRequest headers ↔
      (contains url (lit "/images") = true → ComesBack (resolve (webRoot workingDir)) url) := by
  have hroot : 0 ∉ webRoot workingDir := by
    rw [webRoot, List.mem_append, not_or]
    exact ⟨h, by decide⟩
  by_cases himages : contains url (lit "/images") = true
  · rw [← comesBack_iff, ← CBuffer.content_append hroot]
    constructor
    · intro hinside _
      exact hinside _ ((opens_image_iff himages).mpr rfl)
    · intro hback location hopens
      rw [(opens_image_iff himages).mp hopens]
      exact hback himages
  · refine iff_of_true ?_ fun hnot ↦ absurd hnot himages
    intro location hopens
    obtain ⟨name, hname, rfl⟩ := opens_page himages hopens
    obtain ⟨hzero, hpieces, hdown⟩ := pageNames_pieces name hname
    rw [CBuffer.content_append hroot, CBuffer.content, takeWhile_ne_of_not_mem hzero,
      resolve_webRoot, resolve_webRoot_append hpieces, List.append_nil, movesOf, List.map_singleton,
      hdown]
    exact List.prefix_append _ _

/-- The frontend of the examples runs here. -/
def exampleDir : Bytes := lit "/srv"

theorem staysInside_iff_logo : StaysInside {} (lit "/images/logo.png") exampleDir [] ∅ := by
  refine (staysInside_iff (by decide) {} _ [] ∅).mpr fun _ ↦ ?_
  constructor
  · decide
  · decide

/-- The image is a file outside. -/
theorem image_leaves_webRoot : ¬StaysInside {} (lit "/images/../../secret") exampleDir [] ∅ := by
  intro hinside
  have himages : contains (lit "/images/../../secret") (lit "/images") = true := by decide
  have hsecret := hinside _ ((opens_image_iff himages).mpr rfl)
  revert hsecret
  decide

end PennCloud.Frontend.WebRoot
