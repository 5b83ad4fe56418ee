import PennCloud.Frontend.DriveMoves

/-!
# Moving a folder

The files of a folder are moved one after the other, in the order of the index, while the later ones are
still where they were. The handler tests for an entry of the target folder only. It moves the
folder with all its files exactly if the new paths have no separator and are those of no other
entry, no file has a key twice, and no chunk goes to where one is that is moved later.
-/

open PennCloud.Library.CppString PennCloud.Library.Programs PennCloud.Library.CellMoves
open PennCloud.KV.TabletCells PennCloud.Frontend.KVClient PennCloud.Frontend.HttpText
open PennCloud.Frontend.Storage PennCloud.Frontend.StorageIndex PennCloud.Frontend.FileEntries
open PennCloud.Frontend.IndexPaths PennCloud.Frontend.IndexSharing PennCloud.Frontend.Uploads
open PennCloud.Frontend.Listings PennCloud.Frontend.DriveMoves

namespace PennCloud.Frontend.FolderMoves

/-- The folder that the request asks for. -/
def targetFolder (rawRequest : Bytes) : Bytes :=
  addSlash (jsonParam rawRequest (lit "target_path"))

/-- Under the target instead of the old path. -/
def relocateItem (old target : Bytes) (item : Item) : Item :=
  item.withPath (relocate old target item.path)

/-- The moves of an item that is in the folder. -/
def itemMoves (user old target : Bytes) (item : Item) : List (Move (Bytes × Bytes)) :=
  if old <+: item.path then
    fileMoves user item.path (relocate old target item.path) item.keys
  else []

def folderMoves (user old target : Bytes) (items : List Item) : List (Move (Bytes × Bytes)) :=
  items.flatMap (itemMoves user old target)

/-- A chunk of the first file goes to where one of the second is. -/
def Meets (old target : Bytes) (item other : Item) : Prop :=
  old <+: item.path ∧ old <+: other.path ∧ other.path = relocate old target item.path ∧
    ∃ key ∈ item.keys, key ∈ other.keys

instance (old target : Bytes) (item other : Item) : Decidable (Meets old target item other) :=
  inferInstanceAs (Decidable (_ ∧ _))

/-- The way of every file is clear. -/
structure MovesApart (old target : Bytes) (items : List Item) : Prop where
  plain : ∀ item ∈ items, old <+: item.path → comma ∉ target ∧ colon ∉ target
  keys : ∀ item ∈ items, old <+: item.path → item.keys.Nodup
  vacant : Vacant old target (items.map Item.path)
  order : items.Pairwise fun item later ↦ ¬Meets old target item later
  apart : ∀ item ∈ items, ¬Meets old target item item

/-- Index and data are as before; an index that is missing reads as an empty one. -/
structure Unchanged (user : Bytes) (before after : Store) : Prop where
  index : indexOf user after = indexOf user before
  cells : ∀ cell, cell ≠ indexCell user → after cell = before cell

/-- The items of the folder are under the target, and all of them have the content they had. -/
structure FolderMoved (user old target : Bytes) (items : List Item) (before after : Store) :
    Prop where
  index : entries (indexOf user after) = (items.map (relocateItem old target)).map Item.text
  relocated : paths (indexOf user after) = (items.map Item.path).map (relocate old target)
  distinct : (paths (indexOf user after)).Nodup
  content : ∀ item ∈ items,
    chunksOf after user (relocateItem old target item) = chunksOf before user item

variable {user old target : Bytes} {items : List Item}

/-! ## Running the handler -/

@[simp]
theorem path_relocateItem (old target : Bytes) (item : Item) :
    (relocateItem old target item).path = relocate old target item.path :=
  Item.path_withPath _ item

@[simp]
theorem keys_relocateItem (old target : Bytes) (item : Item) :
    (relocateItem old target item).keys = item.keys := Item.keys_withPath _ item

theorem relocateItem_of_not_begins {item : Item} (h : ¬old <+: item.path) :
    relocateItem old target item = item := by
  rw [relocateItem, relocate_of_not_begins h, Item.withPath_self]

theorem relocate_self (old path : Bytes) : relocate old old path = path := by
  unfold relocate
  split
  · next hbegins => exact List.prefix_iff_eq_append.mp hbegins
  · rfl

theorem relocateItem_self (old : Bytes) (item : Item) : relocateItem old old item = item := by
  rw [relocateItem, relocate_self, Item.withPath_self]

theorem eq_of_relocate {text : Bytes} (h : old <+: text) (hsame : relocate old target text = text) :
    target = old := by
  obtain ⟨more, rfl⟩ := h
  rw [relocate_of_begins (List.prefix_append old more), List.drop_left] at hsame
  exact List.append_cancel_right hsame

theorem text_relocateItem (hold : colon ∉ old) (item : Item) :
    (relocateItem old target item).text = relocate old target item.text := by
  cases item with
  | folder path => rfl
  | file path keys => exact (relocate_append hold path _).symm

theorem mem_itemMoves {m : Move (Bytes × Bytes)} {item : Item} :
    m ∈ itemMoves user old target item ↔ old <+: item.path ∧ ∃ key ∈ item.keys, m = chunkMove
      (fileRow user item.path) (fileRow user (relocate old target item.path)) key := by
  unfold itemMoves
  split
  · next hbegins =>
    constructor
    · exact fun hm ↦ ⟨hbegins, mem_fileMoves hm⟩
    · rintro ⟨-, key, hkey, rfl⟩
      exact mem_fileMoves_of_mem hkey
  · next hbegins => simp [hbegins]

theorem mem_folderMoves {m : Move (Bytes × Bytes)} :
    m ∈ folderMoves user old target items ↔
      ∃ item ∈ items, old <+: item.path ∧ ∃ key ∈ item.keys, m = chunkMove
        (fileRow user item.path) (fileRow user (relocate old target item.path)) key := by
  simp only [folderMoves, List.mem_flatMap, mem_itemMoves]

theorem run_moveFolderEntry (hold : colon ∉ old) {item : Item} (h : item.WellFormed)
    (store : Store) :
    (moveFolderEntry user old target item.text).run (execute ()) store =
      ((transfer store (itemMoves user old target item)).1,
        answerOf (transfer store (itemMoves user old target item)).2
          (relocateItem old target item).text) := by
  rw [text_relocateItem hold, moveFolderEntry, itemMoves]
  by_cases hbegins : old <+: item.path
  · have htext := (begins_text_iff hold).mpr hbegins
    rw [if_pos htext, if_pos hbegins, relocate_of_begins htext]
    cases item with
    | folder path =>
      rw [Item.text, cutEntry_of_not_mem h.2.1]
      rfl
    | file path keys =>
      have hlength : substrFrom path old.length = .ok (path.drop old.length) :=
        if_neg (Nat.not_lt.mpr hbegins.length_le)
      have hkeys := getlines_join fun key hkey ↦ ⟨(h.2.2 key hkey).1, (h.2.2 key hkey).2.2⟩
      have hnew : relocate old target path = target ++ path.drop old.length :=
        relocate_of_begins hbegins
      rw [Item.text, cutEntry_append h.2.1, Item.path, Item.keys, hnew]
      dsimp only
      rw [hlength, show ofStd (.ok (path.drop old.length)) = (.ret _ : KVProg Bytes) from rfl,
        Prog.ret_bind, show lit "+" = [plus] from rfl, hkeys]
      exact run_thenReturn (run_moveChunks _ _ keys store) _
  · rw [if_neg (mt (begins_text_iff hold).mp hbegins), if_neg hbegins,
      relocate_of_not_begins (mt (begins_text_iff hold).mp hbegins)]
    rfl

theorem run_moveFolderEntries (hold : colon ∉ old) (h : ∀ item ∈ items, item.WellFormed)
    (store : Store) :
    (Prog.mapEach (moveFolderEntry user old target) (items.map Item.text)).run (execute ()) store =
      ((transfer store (folderMoves user old target items)).1,
        answerOf (transfer store (folderMoves user old target items)).2
          ((items.map (relocateItem old target)).map Item.text)) := by
  induction items generalizing store with
  | nil => rfl
  | cons item items ih =>
    obtain ⟨hitem, hitems⟩ := List.forall_mem_cons.mp h
    rw [List.map_cons, Prog.mapEach, Prog.run_bind, run_moveFolderEntry hold hitem, folderMoves,
      List.flatMap_cons, transfer_append, ← folderMoves]
    generalize transfer store (itemMoves user old target item) = first
    obtain ⟨between, all⟩ := first
    cases all with
    | false => rfl
    | true =>
      rw [answerOf_true, if_pos rfl]
      dsimp only
      rw [Prog.run_bind, ih hitems]
      generalize transfer between (folderMoves user old target items) = second
      obtain ⟨after, all⟩ := second
      cases all with
      | false => rfl
      | true => rfl

/-- The store after the loop, and with the new index if the loop has gone through. -/
def storeMoved (user old target : Bytes) (items : List Item) (store : Store) : Store :=
  if (transfer store (folderMoves user old target items)).2 then
    Function.update (transfer store (folderMoves user old target items)).1 (indexCell user)
      (some (textOf (items.map (relocateItem old target))))
  else
    (transfer store (folderMoves user old target items)).1

theorem indexOf_folderMoves (store : Store) :
    indexOf user (transfer store (folderMoves user old target items)).1 = indexOf user store := by
  apply indexOf_transfer
  intro m hm
  obtain ⟨item, -, -, key, -, rfl⟩ := mem_folderMoves.mp hm
  exact ⟨item.path, relocate old target item.path, key, rfl⟩

/-- The pieces of an index without items are one empty piece, to which nothing happens. -/
theorem run_splitEntries (drive : Drive user) (hold : colon ∉ old) (hne : old ≠ [])
    (target : Bytes) :
    ∃ pieces, join pieces (lit ",") = textOf (drive.listing.items.map (relocateItem old target)) ∧
      (Prog.mapEach (moveFolderEntry user old target)
          (split (textOf drive.listing.items) comma)).run (execute ()) drive.store =
        ((transfer drive.store (folderMoves user old target drive.listing.items)).1,
          answerOf (transfer drive.store (folderMoves user old target drive.listing.items)).2
            pieces) := by
  by_cases hitems : drive.listing.items = []
  · have hempty : ¬old <+: [] := fun hbegins ↦ hne (List.prefix_nil.mp hbegins)
    have hpiece : moveFolderEntry user old target [] = .ret [] := if_neg hempty
    refine ⟨[[]], by rw [hitems]; rfl, ?_⟩
    rw [hitems, show split (textOf []) comma = [[]] from rfl, Prog.mapEach, hpiece]
    rfl
  · refine ⟨_, rfl, ?_⟩
    rw [split_textOf drive.listing.wellFormed hitems]
    exact run_moveFolderEntries hold drive.listing.wellFormed drive.store

/-- The body of the try block. -/
def moveFolderPass (user old targetParam : Bytes) : KVProg (Pass Response) := do
  let fileListOld ← getdefault user (lit "storage") []
  let paths := split fileListOld comma
  let _ ← back targetParam
  if addSlash targetParam ∈ paths then
    return .done (corsOk (lit "Failed moved folder: folder existed!"))
  else
    let paths ← Prog.mapEach (moveFolderEntry user old (addSlash targetParam)) paths
    cput user (lit "storage") fileListOld (join paths (lit ","))
    return .done (corsOk (lit "Successfully moved folder"))

theorem handleMoveFolder_eq (user rawRequest : Bytes) : handleMoveFolder user rawRequest = fun _ ↦
    retryOrBreak (lit "Successfully moved folder") (moveFolderPass user (oldPath rawRequest)
      (jsonParam rawRequest (lit "target_path"))) := rfl

theorem run_handleMoveFolder {rawRequest : Bytes} (drive : Drive user)
    (hold : colon ∉ oldPath rawRequest) (hne : oldPath rawRequest ≠ [])
    (hparam : jsonParam rawRequest (lit "target_path") ≠ []) :
    ∃ response, runJob (execute ()) (handleMoveFolder user rawRequest) 1 0 drive.store =
      some (if targetFolder rawRequest ∈ drive.listing.items.map Item.text then drive.store
        else storeMoved user (oldPath rawRequest) (targetFolder rawRequest) drive.listing.items
          drive.store, .ok response) := by
  obtain ⟨b, hback⟩ := back_of_ne_nil hparam
  have htarget : addSlash (jsonParam rawRequest (lit "target_path")) ∈
      split (textOf drive.listing.items) comma ↔
        targetFolder rawRequest ∈ drive.listing.items.map Item.text := by
    rw [← entries_textOf drive.listing.wellFormed, mem_entries]
    exact (and_iff_left (addSlash_ne_nil _)).symm
  rw [handleMoveFolder_eq]
  by_cases hexists : targetFolder rawRequest ∈ drive.listing.items.map Item.text
  · refine ⟨corsOk (lit "Failed moved folder: folder existed!"), run_retryOrBreak_of_done ?_⟩
    rw [if_pos hexists, moveFolderPass, run_bind_getIndex drive.index, hback, Prog.ret_bind,
      if_pos (htarget.mpr hexists)]
    rfl
  · obtain ⟨pieces, hjoin, hrun⟩ := run_splitEntries drive hold hne (targetFolder rawRequest)
    refine ⟨corsOk (lit "Successfully moved folder"), ?_⟩
    have hpass : (moveFolderPass user (oldPath rawRequest)
        (jsonParam rawRequest (lit "target_path"))).run (execute ()) drive.store =
          (storeMoved user (oldPath rawRequest) (targetFolder rawRequest) drive.listing.items
            drive.store, answerOf (transfer drive.store (folderMoves user (oldPath rawRequest)
              (targetFolder rawRequest) drive.listing.items)).2
              (.done (corsOk (lit "Successfully moved folder")))) := by
      rw [moveFolderPass, run_bind_getIndex drive.index, hback, Prog.ret_bind,
        if_neg (mt htarget.mp hexists), Prog.run_bind, ← targetFolder, hrun, storeMoved]
      cases (transfer drive.store (folderMoves user (oldPath rawRequest)
        (targetFolder rawRequest) drive.listing.items)).2 with
      | true =>
        rw [answerOf_true]
        dsimp only
        rw [Prog.run_bind, run_setIndex ((indexOf_folderMoves _).trans drive.index), hjoin]
        rfl
      | false => rfl
    rw [if_neg hexists]
    cases hall : (transfer drive.store (folderMoves user (oldPath rawRequest)
      (targetFolder rawRequest) drive.listing.items)).2 with
    | true =>
      rw [hall] at hpass
      exact run_retryOrBreak_of_done hpass
    | false =>
      rw [hall] at hpass
      exact run_retryOrBreak_of_notFound hpass

/-! ## The chunks -/

theorem separate_folderMoves : Separate (folderMoves user old target items) := by
  intro m hm n hn heq
  obtain ⟨item, -, hbegins, key, -, rfl⟩ := mem_folderMoves.mp hm
  obtain ⟨other, -, hbegins', key', -, rfl⟩ := mem_folderMoves.mp hn
  obtain ⟨hrows, hkeys⟩ := Prod.mk.inj heq
  have hpaths := fileRow_injective user hrows
  rw [relocate_of_begins hbegins, relocate_of_begins hbegins'] at hpaths
  have hpath : item.path = other.path := by
    rw [← List.prefix_iff_eq_append.mp hbegins, ← List.prefix_iff_eq_append.mp hbegins',
      List.append_cancel_left hpaths]
  have hkey : key = key' := hkeys
  change (fileRow user item.path, key) = (fileRow user other.path, key')
  rw [hpath, hkey]

theorem sources_ne_none {store : Store} (h : Complete store user items) :
    ∀ m ∈ folderMoves user old target items, store m.source ≠ none := by
  intro m hm
  obtain ⟨item, hitem, -, key, hkey, rfl⟩ := mem_folderMoves.mp hm
  exact complete_iff.mp h item hitem key hkey

theorem nodup_itemMoves {item : Item} (h : old <+: item.path → item.keys.Nodup) :
    ((itemMoves user old target item).map Move.source).Nodup := by
  unfold itemMoves
  split
  · next hbegins => exact nodup_fileMoves (h hbegins)
  · exact List.nodup_nil

theorem nodup_folderMoves (hdistinct : (items.map Item.path).Nodup)
    (hkeys : ∀ item ∈ items, old <+: item.path → item.keys.Nodup) :
    ((folderMoves user old target items).map Move.source).Nodup := by
  rw [folderMoves, List.map_flatMap, List.nodup_flatMap]
  refine ⟨fun item hitem ↦ nodup_itemMoves (hkeys item hitem), ?_⟩
  refine (List.pairwise_map.mp hdistinct).imp fun hne ↦ ?_
  intro cell hcell hcell'
  obtain ⟨m, hm, rfl⟩ := List.mem_map.mp hcell
  obtain ⟨n, hn, heq⟩ := List.mem_map.mp hcell'
  obtain ⟨-, key, -, rfl⟩ := mem_itemMoves.mp hm
  obtain ⟨-, key', -, rfl⟩ := mem_itemMoves.mp hn
  exact hne (fileRow_injective user (Prod.mk.inj heq).1).symm

theorem meets_iff {item other : Item} : Meets old target item other ↔
    ∃ m ∈ itemMoves user old target item, ∃ n ∈ itemMoves user old target other,
      m.target = n.source := by
  constructor
  · rintro ⟨hbegins, hbegins', hpath, key, hkey, hkey'⟩
    refine ⟨_, mem_itemMoves.mpr ⟨hbegins, key, hkey, rfl⟩, _,
      mem_itemMoves.mpr ⟨hbegins', key, hkey', rfl⟩, ?_⟩
    rw [chunkMove, chunkMove, hpath]
  · rintro ⟨m, hm, n, hn, heq⟩
    obtain ⟨hbegins, key, hkey, rfl⟩ := mem_itemMoves.mp hm
    obtain ⟨hbegins', key', hkey', rfl⟩ := mem_itemMoves.mp hn
    obtain ⟨hrows, hkeys⟩ := Prod.mk.inj heq
    obtain rfl : key = key' := hkeys
    exact ⟨hbegins, hbegins', (fileRow_injective user hrows).symm, key, hkey, hkey'⟩

/-- All chunks arrive if no file goes to where one of the folder still is. -/
theorem clear_folderMoves_iff (user : Bytes) (hdistinct : (items.map Item.path).Nodup)
    (hkeys : ∀ item ∈ items, old <+: item.path → item.keys.Nodup) :
    Clear (folderMoves user old target items) ↔
      items.Pairwise (fun item later ↦ ¬Meets old target item later) ∧
        ∀ item ∈ items, ¬Meets old target item item := by
  have hbetween : items.Pairwise (fun item later ↦ ¬Meets old target item later) ↔
      items.Pairwise fun item later ↦ ∀ m ∈ itemMoves user old target item,
        ∀ n ∈ itemMoves user old target later, m.target ≠ n.source := by
    simp only [@meets_iff user, not_exists, not_and, ne_eq]
  constructor
  · rintro ⟨-, horder, hapart⟩
    refine ⟨hbetween.mpr (List.pairwise_flatMap.mp horder).2, ?_⟩
    rintro item hitem ⟨hbegins, -, hpath, key, hkey, -⟩
    apply hapart _ (mem_folderMoves.mpr ⟨item, hitem, hbegins, key, hkey, rfl⟩)
    rw [chunkMove, ← hpath]
  · rintro ⟨horder, hself⟩
    have hwithin : ∀ item ∈ items, ∀ m ∈ itemMoves user old target item,
        ∀ n ∈ itemMoves user old target item, m.target ≠ n.source :=
      fun item hitem m hm n hn heq ↦ hself item hitem (meets_iff.mpr ⟨m, hm, n, hn, heq⟩)
    refine ⟨nodup_folderMoves hdistinct hkeys, ?_, ?_⟩
    · refine List.pairwise_flatMap.mpr ⟨fun item hitem ↦ ?_, hbetween.mp horder⟩
      exact List.pairwise_of_forall_mem_list (hwithin item hitem)
    · intro m hm
      obtain ⟨item, hitem, hmove⟩ := List.mem_flatMap.mp hm
      exact hwithin item hitem m hmove m hmove

/-! ## The index -/

/-- Joined pieces, with one more delimiter in front. -/
theorem cons_join (piece : Bytes) (pieces : List Bytes) :
    comma :: join (piece :: pieces) (lit ",") = (piece :: pieces).flatMap (comma :: ·) := by
  induction pieces generalizing piece with
  | nil => simp [join]
  | cons next pieces ih =>
    rw [List.flatMap_cons, ← ih, join, List.intercalate_cons_cons, ← join]
    simp [lit, comma]

theorem length_relocate (target : Bytes) {text : Bytes} (h : old <+: text) :
    (relocate old target text).length + old.length = text.length + target.length := by
  have hlength := h.length_le
  rw [relocate_of_begins h, List.length_append, List.length_drop]
  omega

/-- Every relocated entry changes the length by the same amount. -/
theorem length_relocated (hold : colon ∉ old) (target : Bytes) (items : List Item) :
    (items.flatMap fun item ↦ comma :: (relocateItem old target item).text).length +
        items.countP (old <+: ·.path) * old.length =
      (items.flatMap fun item ↦ comma :: item.text).length +
        items.countP (old <+: ·.path) * target.length := by
  induction items with
  | nil => simp
  | cons item items ih =>
    rw [List.flatMap_cons, List.flatMap_cons, List.length_append, List.length_append,
      List.length_cons, List.length_cons, text_relocateItem hold]
    by_cases hbegins : old <+: item.path
    · have hlength := length_relocate target ((begins_text_iff hold).mpr hbegins)
      rw [List.countP_cons_of_pos (by simpa using hbegins), Nat.succ_mul, Nat.succ_mul]
      omega
    · rw [List.countP_cons_of_neg (by simpa using hbegins),
        relocate_of_not_begins (mt (begins_text_iff hold).mp hbegins)]
      omega

/-- An index that a move leaves as it is has its folder moved to itself. -/
theorem eq_of_textOf_relocate (hold : colon ∉ old)
    (htext : textOf (items.map (relocateItem old target)) = textOf items)
    (hany : ∃ item ∈ items, old <+: item.path) : target = old := by
  have hflat : (items.flatMap fun item ↦ comma :: (relocateItem old target item).text) =
      items.flatMap fun item ↦ comma :: item.text := by
    cases items with
    | nil => rfl
    | cons item items =>
      have hjoin := congrArg (comma :: ·) htext
      simp only [textOf, List.map_cons, cons_join] at hjoin
      simpa only [List.flatMap_cons, List.flatMap_map] using hjoin
  have hlength : target.length = old.length := by
    have hsame := length_relocated hold target items
    rw [hflat] at hsame
    obtain ⟨item, hitem, hbegins⟩ := hany
    have hpos : 0 < items.countP (old <+: ·.path) :=
      List.countP_pos_iff.mpr ⟨item, hitem, by simpa using hbegins⟩
    exact (Nat.eq_of_mul_eq_mul_left hpos (Nat.add_left_cancel hsame)).symm
  clear htext
  induction items with
  | nil =>
    obtain ⟨item, hitem, -⟩ := hany
    exact absurd hitem List.not_mem_nil
  | cons item items ih =>
    rw [List.flatMap_cons, List.flatMap_cons, List.cons_append, List.cons_append] at hflat
    have hrest := (List.cons.inj hflat).2
    rw [text_relocateItem hold] at hrest
    by_cases hbegins : old <+: item.path
    · have htext := (begins_text_iff hold).mpr hbegins
      rw [relocate_of_begins htext] at hrest
      obtain ⟨more, hmore⟩ := htext
      rw [← hmore, List.drop_left, List.append_assoc, List.append_assoc] at hrest
      exact (List.append_inj hrest hlength).1
    · rw [relocate_of_not_begins (mt (begins_text_iff hold).mp hbegins)] at hrest
      obtain ⟨moved, hmoved, hbegins'⟩ := hany
      apply ih _ (List.append_cancel_left hrest)
      rcases List.mem_cons.mp hmoved with rfl | hmem
      · exact absurd hbegins' hbegins
      · exact ⟨moved, hmem, hbegins'⟩

section Listing

variable {listing : Listing}

/-- The entries of the new index, if the target has no separator. -/
theorem entries_relocated (hold : colon ∉ old) (hne : target ≠ [])
    (hplain : ∀ item ∈ listing.items, old <+: item.path → comma ∉ target) :
    entries (textOf (listing.items.map (relocateItem old target))) =
      (listing.items.map (relocateItem old target)).map Item.text := by
  have htext : ∀ item ∈ listing.items, comma ∉ (relocateItem old target item).text ∧
      (relocateItem old target item).text ≠ [] := by
    intro item hitem
    have hwell := listing.wellFormed item hitem
    rw [text_relocateItem hold]
    by_cases hbegins : old <+: item.path
    · exact ⟨not_mem_relocate (hplain item hitem hbegins) hwell.comma_not_mem_text,
        relocate_ne_nil hne hwell.text_ne_nil⟩
    · rw [relocate_of_not_begins (mt (begins_text_iff hold).mp hbegins)]
      exact ⟨hwell.comma_not_mem_text, hwell.text_ne_nil⟩
  rw [textOf, entries_join, List.filter_eq_self]
  · intro piece hpiece
    obtain ⟨moved, hmoved, rfl⟩ := List.mem_map.mp hpiece
    obtain ⟨item, hitem, rfl⟩ := List.mem_map.mp hmoved
    exact decide_eq_true (htext item hitem).2
  · intro piece hpiece
    obtain ⟨moved, hmoved, rfl⟩ := List.mem_map.mp hpiece
    obtain ⟨item, hitem, rfl⟩ := List.mem_map.mp hmoved
    exact (htext item hitem).1

theorem paths_relocated (hold : colon ∉ old) (hne : target ≠ [])
    (hplain : ∀ item ∈ listing.items, old <+: item.path → comma ∉ target ∧ colon ∉ target) :
    paths (textOf (listing.items.map (relocateItem old target))) =
      (listing.items.map Item.path).map (relocate old target) := by
  rw [paths, entries_relocated hold hne fun item hitem hbegins ↦ (hplain item hitem hbegins).1,
    List.map_map, List.map_map, List.map_map]
  apply List.map_congr_left
  intro item hitem
  have hwell := listing.wellFormed item hitem
  simp only [Function.comp_apply]
  by_cases hbegins : old <+: item.path
  · rw [text_relocateItem hold, entryPath_relocate hold (hplain item hitem hbegins).2,
      entryPath_text hwell]
  · rw [relocateItem_of_not_begins hbegins, relocate_of_not_begins hbegins, entryPath_text hwell]

end Listing

/-- The chunks are where the transfer has left them. -/
theorem storeMoved_file (store : Store) (path key : Bytes) :
    storeMoved user old target items store (fileRow user path, key) =
      (transfer store (folderMoves user old target items)).1 (fileRow user path, key) := by
  unfold storeMoved
  split
  · exact Function.update_of_ne (fun heq ↦ fileRow_ne_user user path (Prod.mk.inj heq).1) _ _
  · rfl

/-- What is not in the folder stays where it is, if nothing of the folder goes there. -/
theorem transfer_stays (hvacant : Vacant old target (items.map Item.path)) {item : Item}
    (hitem : item ∈ items) (hbegins : ¬old <+: item.path) (store : Store) (key : Bytes) :
    (transfer store (folderMoves user old target items)).1 (fileRow user item.path, key) =
      store (fileRow user item.path, key) := by
  apply transfer_of_ne
  intro m hm
  obtain ⟨moved, hmoved, hbegins', key', -, rfl⟩ := mem_folderMoves.mp hm
  constructor
  · intro heq
    apply hbegins
    rwa [fileRow_injective user (Prod.mk.inj heq).1]
  · intro heq
    apply hvacant moved.path (List.mem_map_of_mem hmoved) item.path (List.mem_map_of_mem hitem)
      hbegins' hbegins
    rw [← relocate_of_begins hbegins']
    exact (fileRow_injective user (Prod.mk.inj heq).1).symm

/-- A chunk that is listed twice stops the loop. -/
theorem nodup_keys_of_all {store : Store}
    (hall : (transfer store (folderMoves user old target items)).2 = true) {item : Item}
    (hitem : item ∈ items) (hbegins : old <+: item.path) : item.keys.Nodup := by
  obtain ⟨front, back, hitems⟩ := List.append_of_mem hitem
  rw [hitems, folderMoves, List.flatMap_append, List.flatMap_cons] at hall
  have hown := (transfer_split (transfer_split hall).2).1
  rw [itemMoves, if_pos hbegins] at hown
  by_contra htwice
  rw [stops_of_twice] at hown
  · cases hown
  · intro m hm n hn heq
    obtain ⟨key, -, rfl⟩ := mem_fileMoves hm
    obtain ⟨key', -, rfl⟩ := mem_fileMoves hn
    exact congrArg (Prod.mk _) (Prod.mk.inj heq).2
  · intro hnodup
    rw [fileMoves, List.map_map] at hnodup
    exact htwice hnodup.of_map

section Moved

variable {drive : Drive user} (hold : colon ∉ old) (hne : target ≠ [])
  (hcomplete : Complete drive.store user drive.listing.items)

include hold hne hcomplete

/-- A folder whose way is clear. -/
theorem folderMoved_of_apart (h : MovesApart old target drive.listing.items) :
    FolderMoved user old target drive.listing.items drive.store
      (storeMoved user old target drive.listing.items drive.store) := by
  have hdistinct := drive.listing.distinct
  have hthere := @sources_ne_none user old target _ _ hcomplete
  have hclear := (clear_folderMoves_iff user hdistinct h.keys).mpr ⟨h.order, h.apart⟩
  have hall := transfer_all hclear.sources hthere
  have hindex : indexOf user (storeMoved user old target drive.listing.items drive.store) =
      textOf (drive.listing.items.map (relocateItem old target)) := by
    rw [storeMoved, if_pos hall]
    exact indexOf_update_index user _ _
  have hpaths := paths_relocated hold hne h.plain
  constructor
  · rw [hindex]
    exact entries_relocated hold hne fun item hitem hbegins ↦ (h.plain item hitem hbegins).1
  · rw [hindex, hpaths]
  · rw [hindex, hpaths]
    exact nodup_relocate hdistinct h.vacant
  · intro item hitem
    rw [chunksOf_eq_iff (keys_relocateItem old target item), path_relocateItem]
    intro key hkey
    rw [storeMoved_file]
    by_cases hbegins : old <+: item.path
    · exact hclear.arrives separate_folderMoves hthere
        (mem_folderMoves.mpr ⟨item, hitem, hbegins, key, hkey, rfl⟩)
    · rw [relocate_of_not_begins hbegins]
      exact transfer_stays h.vacant hitem hbegins drive.store key

omit hold hne hcomplete in
/-- A folder that is moved to itself, without any change. -/
theorem folderMoved_self {after : Store} (h : Unchanged user drive.store after) :
    FolderMoved user old old drive.listing.items drive.store after := by
  have hitems : drive.listing.items.map (relocateItem old old) = drive.listing.items := by
    rw [List.map_congr_left fun item _ ↦ relocateItem_self old item, List.map_id']
  have hpaths : (drive.listing.items.map Item.path).map (relocate old old) =
      drive.listing.items.map Item.path := by
    rw [List.map_congr_left fun path _ ↦ relocate_self old path, List.map_id']
  have hindex := h.index.trans drive.index
  constructor
  · rw [hindex, hitems, entries_textOf drive.listing.wellFormed]
  · rw [hindex, hpaths, paths_textOf drive.listing.wellFormed]
  · rw [hindex, paths_textOf drive.listing.wellFormed]
    exact drive.listing.distinct
  · intro item hitem
    rw [relocateItem_self, chunksOf_eq_iff rfl]
    intro key _
    exact h.cells _ fun heq ↦ fileRow_ne_user user item.path (Prod.mk.inj heq).1

omit hne in
/-- A chunk that a broken loop has left without a value is missed. -/
theorem transfer_all_of_moved (h : Unchanged user drive.store
      (storeMoved user old target drive.listing.items drive.store) ∨
    FolderMoved user old target drive.listing.items drive.store
      (storeMoved user old target drive.listing.items drive.store)) :
    (transfer drive.store (folderMoves user old target drive.listing.items)).2 = true := by
  by_contra hnot
  have hstopped := Bool.eq_false_iff.mpr hnot
  obtain ⟨m, hm, hnone⟩ := exists_source_of_stopped hstopped
  have hthere := sources_ne_none hcomplete m hm
  obtain ⟨item, hitem, hbegins, key, hkey, rfl⟩ := mem_folderMoves.mp hm
  apply hthere
  rcases h with hsame | hmoved
  · rw [← hnone, ← hsame.cells]
    · exact storeMoved_file drive.store item.path key
    · exact fun heq ↦ fileRow_ne_user user item.path (Prod.mk.inj heq).1
  · have hindex := hmoved.index
    rw [storeMoved, if_neg hnot, indexOf_folderMoves, drive.index,
      entries_textOf drive.listing.wellFormed, List.map_map] at hindex
    have htext := List.map_inj_left.mp hindex item hitem
    rw [Function.comp_apply, text_relocateItem hold] at htext
    obtain rfl := eq_of_relocate ((begins_text_iff hold).mpr hbegins) htext.symm
    have hcontent := hmoved.content item hitem
    rw [relocateItem_self, chunksOf_eq_iff rfl] at hcontent
    exact (hcontent key hkey).symm.trans ((storeMoved_file _ _ _).trans hnone)

omit hne in
theorem apart_of_folderMoved
    (hall : (transfer drive.store (folderMoves user old target drive.listing.items)).2 = true)
    (h : FolderMoved user old target drive.listing.items drive.store
      (storeMoved user old target drive.listing.items drive.store)) :
    MovesApart old target drive.listing.items := by
  have hdistinct := drive.listing.distinct
  have hkeys : ∀ item ∈ drive.listing.items, old <+: item.path → item.keys.Nodup :=
    fun _ hitem hbegins ↦ nodup_keys_of_all hall hitem hbegins
  have harrives : ∀ m ∈ folderMoves user old target drive.listing.items,
      (transfer drive.store (folderMoves user old target drive.listing.items)).1 m.target =
        drive.store m.source := by
    intro m hm
    obtain ⟨item, hitem, -, key, hkey, rfl⟩ := mem_folderMoves.mp hm
    have hcontent := h.content item hitem
    rw [chunksOf_eq_iff (keys_relocateItem old target item), path_relocateItem] at hcontent
    have hchunk := hcontent key hkey
    rwa [storeMoved_file] at hchunk
  have hclear := clear_of_arrives (nodup_folderMoves hdistinct hkeys) separate_folderMoves
    (sources_ne_none hcomplete) harrives
  obtain ⟨horder, hapart⟩ := (clear_folderMoves_iff user hdistinct hkeys).mp hclear
  refine ⟨fun item hitem hbegins ↦ ⟨?_, ?_⟩, hkeys, ?_, horder, hapart⟩
  · intro hcomma
    have hentry : (relocateItem old target item).text ∈ entries (indexOf user
        (storeMoved user old target drive.listing.items drive.store)) := by
      rw [h.index]
      exact List.mem_map_of_mem (List.mem_map_of_mem hitem)
    apply not_mem_of_mem_split (mem_entries.mp hentry).1
    rw [text_relocateItem hold, relocate_of_begins ((begins_text_iff hold).mpr hbegins)]
    exact List.mem_append_left _ hcomma
  · intro hcolon
    have hpath : relocate old target item.path ∈ paths (indexOf user
        (storeMoved user old target drive.listing.items drive.store)) := by
      rw [h.relocated]
      exact List.mem_map_of_mem (List.mem_map_of_mem hitem)
    obtain ⟨entry, -, hentry⟩ := List.mem_map.mp hpath
    apply colon_not_mem_entryPath entry
    rw [hentry, relocate_of_begins hbegins]
    exact List.mem_append_left _ hcolon
  · intro path hpath other hother hbegins hnot heq
    have hnodup := h.distinct
    rw [h.relocated] at hnodup
    have hsame : path = other := by
      apply List.inj_on_of_nodup_map hnodup hpath hother
      rw [relocate_of_begins hbegins, relocate_of_not_begins hnot, heq]
    exact hnot (hsame ▸ hbegins)

end Moved

/-- Nothing is in the folder. -/
theorem movesApart_of_none (h : ∀ item ∈ items, ¬old <+: item.path) :
    MovesApart old target items where
  plain := fun item hitem hbegins ↦ absurd hbegins (h item hitem)
  keys := fun item hitem hbegins ↦ absurd hbegins (h item hitem)
  vacant := by
    rintro path hpath other - hbegins
    obtain ⟨item, hitem, rfl⟩ := List.mem_map.mp hpath
    exact absurd hbegins (h item hitem)
  order := List.pairwise_of_forall_mem_list fun item hitem _ _ hmeets ↦ h item hitem hmeets.1
  apart := fun item hitem hmeets ↦ h item hitem hmeets.1

/-- A folder's move keeps all files exactly if it is refused or the way of every file is clear. -/
theorem moveFolder_keeps_files_iff {rawRequest : Bytes} (drive : Drive user)
    (hold : colon ∉ oldPath rawRequest) (hne : oldPath rawRequest ≠ [])
    (hcomplete : Complete drive.store user drive.listing.items)
    (hparam : jsonParam rawRequest (lit "target_path") ≠ []) :
    ∃ (after : Store) (response : Response),
      runJob (execute ()) (handleMoveFolder user rawRequest) 1 0 drive.store =
        some (after, .ok response) ∧
      (Unchanged user drive.store after ∨ FolderMoved user (oldPath rawRequest)
          (targetFolder rawRequest) drive.listing.items drive.store after ↔
        targetFolder rawRequest ∈ drive.listing.items.map Item.text ∨
          MovesApart (oldPath rawRequest) (targetFolder rawRequest) drive.listing.items) := by
  obtain ⟨response, hrun⟩ := run_handleMoveFolder drive hold hne hparam
  refine ⟨_, response, hrun, ?_⟩
  by_cases hexists : targetFolder rawRequest ∈ drive.listing.items.map Item.text
  · rw [if_pos hexists]
    exact iff_of_true (.inl ⟨rfl, fun _ _ ↦ rfl⟩) (.inl hexists)
  · rw [if_neg hexists]
    constructor
    · intro h
      right
      have hall := transfer_all_of_moved hold hcomplete h
      rcases h with hsame | hmoved
      · by_cases hany : ∃ item ∈ drive.listing.items, oldPath rawRequest <+: item.path
        · have htext := hsame.index
          rw [storeMoved, if_pos hall, drive.index] at htext
          have htarget := eq_of_textOf_relocate hold
            ((indexOf_update_index user _ _).symm.trans htext) hany
          rw [htarget] at hsame hall ⊢
          exact apart_of_folderMoved hold hcomplete hall (folderMoved_self hsame)
        · exact movesApart_of_none fun item hitem hbegins ↦ hany ⟨item, hitem, hbegins⟩
      · exact apart_of_folderMoved hold hcomplete hall hmoved
    · rintro (hrefused | hapart)
      · exact absurd hrefused hexists
      · exact .inr (folderMoved_of_apart hold (addSlash_ne_nil _) hcomplete hapart)

/-- A folder with a file, and a file in a folder that has no entry. -/
def namesakes : Drive (lit "u") :=
  .write (lit "u") ⟨[.folder (lit "a/"), .file (lit "a/x") [lit "k0"], .file (lit "b/x") [lit "k0"]],
      by decide, by decide⟩
    (storeOf [((lit "u:a/x", lit "k0"), lit "1"), ((lit "u:b/x", lit "k0"), lit "2")])

/-- A request to move the folder `a/`. -/
def moveTo (target : String) : Bytes :=
  lit "\r\n\r\n\x7b\"old_path\":\"a/\",\"target_path\":\"" ++ lit target ++ lit "\"\x7d"

theorem moveFolder_keeps_files_namesakes : ∃ (after : Store) (response : Response),
    runJob (execute ()) (handleMoveFolder (lit "u") (moveTo "c")) 1 0 namesakes.store =
      some (after, .ok response) ∧
    (Unchanged (lit "u") namesakes.store after ∨
      FolderMoved (lit "u") (lit "a/") (lit "c/") namesakes.listing.items namesakes.store after) := by
  have hold : oldPath (moveTo "c") = lit "a/" := by decide +kernel
  have htarget : targetFolder (moveTo "c") = lit "c/" := by decide +kernel
  have hapart : MovesApart (lit "a/") (lit "c/") namesakes.listing.items :=
    ⟨by decide +kernel, by decide +kernel, by decide +kernel, by decide +kernel, by decide +kernel⟩
  have hcolon : colon ∉ oldPath (moveTo "c") := by decide +kernel
  obtain ⟨after, response, hrun, hiff⟩ := moveFolder_keeps_files_iff namesakes hcolon
    (by decide +kernel) (by decide +kernel) (by decide +kernel)
  rw [hold, htarget] at hiff
  exact ⟨after, response, hrun, hiff.mpr (.inr hapart)⟩

/-- The file `b/x` gets lost under the moved one. -/
theorem moveFolder_loses_file :
    ¬∀ (user rawRequest : Bytes) (drive : Drive user),
      (∀ item ∈ drive.listing.items, plus ∉ item.path ∧ item.keys.Nodup) →
      Complete drive.store user drive.listing.items →
      (oldPath rawRequest).getLast? = some slash →
      (∀ b ∈ [comma, colon, plus], b ∉ oldPath rawRequest ∧ b ∉ targetFolder rawRequest) →
      jsonParam rawRequest (lit "target_path") ≠ [] →
      ∃ (after : Store) (response : Response),
        runJob (execute ()) (handleMoveFolder user rawRequest) 1 0 drive.store =
          some (after, .ok response) ∧
        (Unchanged user drive.store after ∨ FolderMoved user (oldPath rawRequest)
          (targetFolder rawRequest) drive.listing.items drive.store after) := by
  intro h
  have hrun : (runJob (execute ()) (handleMoveFolder (lit "u") (moveTo "b")) 1 0
      namesakes.store).map (fun outcome ↦ decide
        (paths (indexOf (lit "u") outcome.1) = [lit "b/", lit "b/x", lit "b/x"])) = some true := by
    decide +kernel
  obtain ⟨after, response, hafter, hkept⟩ := h (lit "u") (moveTo "b") namesakes (by decide +kernel)
    (by decide +kernel) (by decide +kernel) (by decide +kernel) (by decide +kernel)
  rw [hafter] at hrun
  have hpaths : paths (indexOf (lit "u") after) = [lit "b/", lit "b/x", lit "b/x"] :=
    of_decide_eq_true (Option.some.inj hrun)
  rcases hkept with hsame | hmoved
  · have hbefore := hsame.index
    rw [namesakes.index] at hbefore
    rw [hbefore] at hpaths
    revert hpaths
    decide +kernel
  · have hdistinct := hmoved.distinct
    rw [hpaths] at hdistinct
    revert hdistinct
    decide +kernel

end PennCloud.Frontend.FolderMoves
