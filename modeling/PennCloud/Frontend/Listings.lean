import PennCloud.Frontend.IndexPaths

/-!
# Indexes as listings

What a storage index stands for: folders, and files with the keys of their chunks, of pairwise
distinct paths. A drive is a store whose index is the text of a listing. The lemmas say what the
handlers read in that text: its pieces are the entries of the items, and an entry of a file
is cut into the path and the keys.
-/

open PennCloud.Library.CppString PennCloud.Library.TextSearch
open PennCloud.KV.TabletCells PennCloud.Frontend.KVClient PennCloud.Frontend.HttpText
open PennCloud.Frontend.Storage PennCloud.Frontend.StorageIndex PennCloud.Frontend.FileEntries
open PennCloud.Frontend.IndexPaths

namespace PennCloud.Frontend.Listings

inductive Item
  | folder (path : Bytes)
  | file (path : Bytes) (keys : List Bytes)
  deriving DecidableEq

namespace Item

def path : Item → Bytes
  | folder path => path
  | file path _ => path

/-- The keys of the chunks; a folder has none. -/
def keys : Item → List Bytes
  | folder _ => []
  | file _ keys => keys

/-- The entry of an item. -/
def text : Item → Bytes
  | folder path => path
  | file path keys => path ++ colon :: join keys (lit "+")

/-- The item under another path. -/
def withPath (path : Bytes) : Item → Item
  | folder _ => folder path
  | file _ keys => file path keys

/-- Nothing in an entry is taken for a separator, and no key is empty. -/
def WellFormed : Item → Prop
  | folder path => comma ∉ path ∧ colon ∉ path ∧ path.getLast? = some slash
  | file path keys =>
    comma ∉ path ∧ colon ∉ path ∧ ∀ key ∈ keys, key ≠ [] ∧ comma ∉ key ∧ plus ∉ key

instance : DecidablePred WellFormed
  | folder _ => inferInstanceAs (Decidable (_ ∧ _))
  | file _ _ => inferInstanceAs (Decidable (_ ∧ _))

end Item

/-- The index of these items. -/
def textOf (items : List Item) : Bytes := join (items.map Item.text) (lit ",")

structure Listing where
  items : List Item
  wellFormed : ∀ item ∈ items, item.WellFormed
  distinct : (items.map Item.path).Nodup

/-- A store in which the index of a user is the text of a listing. -/
structure Drive (user : Bytes) where
  listing : Listing
  store : Store
  index : indexOf user store = textOf listing.items

/-- The chunks of an item. -/
def chunksOf (store : Store) (user : Bytes) (item : Item) : List (Option Bytes) :=
  item.keys.map fun key ↦ store (fileRow user item.path, key)

/-- The drive with this listing, the other cells being those of the store. -/
def Drive.write (user : Bytes) (listing : Listing) (store : Store) : Drive user where
  listing := listing
  store := Function.update store (indexCell user) (some (textOf listing.items))
  index := indexOf_update_index user store _

/-- Every chunk that the listing names is stored. -/
def Complete (store : Store) (user : Bytes) (items : List Item) : Prop :=
  ∀ item ∈ items, none ∉ chunksOf store user item

instance (store : Store) (user : Bytes) (items : List Item) : Decidable (Complete store user items) :=
  inferInstanceAs (Decidable (∀ item ∈ items, none ∉ chunksOf store user item))

/-- A store that has these cells only. -/
def storeOf (cells : List ((Bytes × Bytes) × Bytes)) : Store := fun cell ↦ cells.lookup cell

/-! ## Cells -/

@[simp]
theorem Drive.listing_write (user : Bytes) (listing : Listing) (store : Store) :
    (write user listing store).listing = listing := rfl

theorem Drive.store_write_of_ne {user : Bytes} {cell : Bytes × Bytes} (h : cell ≠ indexCell user)
    (listing : Listing) (store : Store) : (write user listing store).store cell = store cell :=
  Function.update_of_ne h _ _

theorem Drive.store_write_file (user : Bytes) (listing : Listing) (store : Store)
    (path key : Bytes) :
    (write user listing store).store (fileRow user path, key) = store (fileRow user path, key) :=
  store_write_of_ne (fun heq ↦ fileRow_ne_user user path (Prod.mk.inj heq).1) listing store

theorem chunksOf_eq_iff {store store' : Store} {user : Bytes} {item item' : Item}
    (hkeys : item'.keys = item.keys) :
    chunksOf store' user item' = chunksOf store user item ↔ ∀ key ∈ item.keys,
      store' (fileRow user item'.path, key) = store (fileRow user item.path, key) := by
  rw [chunksOf, hkeys]
  exact List.map_inj_left

theorem complete_iff {store : Store} {user : Bytes} {items : List Item} :
    Complete store user items ↔
      ∀ item ∈ items, ∀ key ∈ item.keys, store (fileRow user item.path, key) ≠ none := by
  simp only [Complete, chunksOf, List.mem_map, not_exists, not_and, ne_eq]

/-! ## Entries -/

namespace Item

@[simp]
theorem path_withPath (path : Bytes) (item : Item) : (item.withPath path).path = path := by
  cases item with
  | folder _ => rfl
  | file _ _ => rfl

@[simp]
theorem keys_withPath (path : Bytes) (item : Item) : (item.withPath path).keys = item.keys := by
  cases item with
  | folder _ => rfl
  | file _ _ => rfl

theorem withPath_self (item : Item) : item.withPath item.path = item := by
  cases item with
  | folder _ => rfl
  | file _ _ => rfl

namespace WellFormed

variable {item : Item} (h : item.WellFormed)

include h

theorem colon_not_mem : colon ∉ item.path := by
  cases item with
  | folder path => exact h.2.1
  | file path keys => exact h.2.1

theorem text_ne_nil : item.text ≠ [] := by
  cases item with
  | folder path =>
    intro hnil
    have hlast := h.2.2
    rw [show path = [] from hnil] at hlast
    cases hlast
  | file path keys => exact List.append_ne_nil_of_right_ne_nil _ (List.cons_ne_nil _ _)

end WellFormed

end Item

theorem Item.WellFormed.comma_not_mem_text {item : Item} (h : item.WellFormed) :
    comma ∉ item.text := by
  cases item with
  | folder path => exact h.1
  | file path keys =>
    rw [Item.text, List.mem_append, List.mem_cons, not_or, not_or]
    refine ⟨h.1, by decide, ?_⟩
    exact not_mem_join (by decide) fun key hkey ↦ (h.2.2 key hkey).2.1

theorem entryPath_text {item : Item} (h : item.WellFormed) : entryPath item.text = item.path := by
  cases item with
  | folder path => exact entryPath_of_not_mem h.2.1
  | file path keys => exact entryPath_append h.2.1 _

theorem colon_not_mem_entryPath (entry : Bytes) : colon ∉ entryPath entry := by
  by_cases hcolon : colon ∈ entry
  · obtain ⟨path, keys, rfl, hpath⟩ := List.eq_append_cons_of_mem hcolon
    rwa [entryPath_append hpath]
  · rwa [entryPath_of_not_mem hcolon]

/-- What begins with a text without a colon, begins with it in front of the colon. -/
theorem begins_text_iff {old : Bytes} (hold : colon ∉ old) {item : Item} :
    old <+: item.text ↔ old <+: item.path := by
  cases item with
  | folder path => rfl
  | file path keys => exact prefix_entry_iff hold _

/-- The keys are read back, unless there are none. -/
theorem split_join_keys {keys : List Bytes} (h : ∀ key ∈ keys, plus ∉ key) (hne : keys ≠ []) :
    split (join keys (lit "+")) plus = keys :=
  List.splitOn_intercalate plus h hne

theorem getlines_join {delimiter : UInt8} {pieces : List Bytes}
    (h : ∀ piece ∈ pieces, piece ≠ [] ∧ delimiter ∉ piece) :
    getlines (join pieces [delimiter]) delimiter = pieces := by
  cases pieces with
  | nil => rfl
  | cons piece rest =>
    have hsplit : (join (piece :: rest) [delimiter]).splitOn delimiter = piece :: rest :=
      List.splitOn_intercalate delimiter (fun p hp ↦ (h p hp).2) (List.cons_ne_nil piece rest)
    unfold getlines
    rw [hsplit, if_neg]
    intro hlast
    exact (h [] (List.mem_of_getLast? hlast)).1 rfl

/-! ## The text of a listing -/

section Text

variable {items : List Item} (h : ∀ item ∈ items, item.WellFormed)

include h

theorem comma_not_mem_texts : ∀ piece ∈ items.map Item.text, comma ∉ piece := by
  intro piece hpiece
  obtain ⟨item, hitem, rfl⟩ := List.mem_map.mp hpiece
  exact (h item hitem).comma_not_mem_text

theorem nil_not_mem_texts : [] ∉ items.map Item.text := by
  intro hmem
  obtain ⟨item, hitem, hnil⟩ := List.mem_map.mp hmem
  exact (h item hitem).text_ne_nil hnil

theorem split_textOf (hne : items ≠ []) : split (textOf items) comma = items.map Item.text :=
  List.splitOn_intercalate comma (comma_not_mem_texts h) (by simpa using hne)

theorem entries_textOf : entries (textOf items) = items.map Item.text := by
  rw [textOf, entries_join (comma_not_mem_texts h), List.filter_eq_self]
  intro piece hpiece
  exact decide_eq_true fun hnil ↦ nil_not_mem_texts h (hnil ▸ hpiece)

theorem getlines_textOf : getlines (textOf items) comma = items.map Item.text := by
  apply getlines_join
  intro piece hpiece
  refine ⟨fun hnil ↦ ?_, comma_not_mem_texts h piece hpiece⟩
  exact nil_not_mem_texts h (hnil ▸ hpiece)

theorem paths_textOf : paths (textOf items) = items.map Item.path := by
  rw [paths, entries_textOf h, List.map_map]
  exact List.map_congr_left fun item hitem ↦ entryPath_text (h item hitem)

end Text

theorem Listing.tidy (listing : Listing) : Tidy (textOf listing.items) := by
  have hpaths := paths_textOf listing.wellFormed
  apply tidy_join
  · exact comma_not_mem_texts listing.wellFormed
  · exact nil_not_mem_texts listing.wellFormed
  · rw [← entries_textOf listing.wellFormed]
    change (paths (textOf listing.items)).Nodup
    rw [hpaths]
    exact listing.distinct

/-- Paths tell the items of a listing apart. -/
theorem Listing.eq_of_path (listing : Listing) {item other : Item} (hitem : item ∈ listing.items)
    (hother : other ∈ listing.items) (hpath : item.path = other.path) : item = other :=
  List.inj_on_of_nodup_map listing.distinct hitem hother hpath

end PennCloud.Frontend.Listings
