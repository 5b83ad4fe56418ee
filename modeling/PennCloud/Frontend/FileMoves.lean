import PennCloud.Frontend.IndexRequests

/-!
# Moving a file beside another request

A move takes the chunks to their new row before it compares and sets the index. Where the comparison
fails, the next pass finds no chunk under the old path any more, and the handler reports success with
the old entry still in the index. Every file has its chunks in the runs in which this does not
happen, and in which no text with a separator becomes part of an entry.
-/

open PennCloud.Library.Runs PennCloud.Library.Programs PennCloud.Library.RelyGuarantee
open PennCloud.KV.TabletCells PennCloud.Frontend.KVClient PennCloud.Frontend.HttpText
open PennCloud.Frontend.Storage PennCloud.Frontend.StorageIndex PennCloud.Frontend.FileEntries
open PennCloud.Frontend.IndexSharing PennCloud.Frontend.IndexRequests

namespace PennCloud.Frontend.FileMoves

section Move

variable {user : Bytes} {requests : Bool → Update} (hpair : MoveAndOther requests) {i : Bool}
  {w : KVWorld Bool} {rawRequest index entry : Bytes}

/-- The chunks that have arrived are in the new row, and those that are left are in the old one, unless
the other request is deleting the file or has taken its entry from the index. -/
structure Moving (user : Bytes) (requests : Bool → Update) (i : Bool)
    (rawRequest index entry : Bytes) (arrived : Bytes → Prop) (todo : List Bytes)
    (w : KVWorld Bool) : Prop where
  seen : Seen user requests False i index w
  arrived : ∀ key, arrived key → w.store (fileRow user (targetPath rawRequest), key) ≠ none
  left : (∀ key ∈ todo, key ∈ fileKeys entry →
      w.store (fileRow user (oldPath rawRequest), key) ≠ none) ∨
    Holds user requests w (!i) entry ∨
    Changed w (!i) ∧ fileCount (oldPath rawRequest) (indexOf user w.store) = 0

/-- No file has the target's path while a move is under way. -/
theorem filePath_ne_target (hrequest : requests i = .moveFile rawRequest)
    (htakes : (requests i).Takes index entry) {other : Bytes} (hother : other ∈ entries index) :
    filePath other ≠ some (targetPath rawRequest) := by
  intro hpath
  obtain ⟨-, htakes⟩ := htakes
  rw [hrequest] at htakes
  obtain ⟨keys, rfl, -⟩ := filePath_eq_some_iff.mp hpath
  exact htakes.2 _ (mem_entries.mp hother).1 (List.prefix_append _ _)

include hpair

theorem Moving.turn {j : Bool} {v : KVWorld Bool} {arrived : Bytes → Prop} {todo : List Bytes}
    (hrequest : requests i = .moveFile rawRequest) (htakes : (requests i).Takes index entry)
    (h : Moving user requests i rawRequest index entry arrived todo w) (hj : j ≠ i)
    (hturn : Turn user requests j w v) :
    Moving user requests i rawRequest index entry arrived todo v := by
  obtain rfl := Bool.eq_not.mpr hj
  have hpath := filePath_of_takes hrequest htakes
  -- Both have read the same index as long as the other holds an entry.
  have hsame : ∀ held, Holds user requests w (!i) held →
      indexOf user w.store = index ∧ held ∈ entries index := by
    rintro held ⟨index', hknown, hheld, -⟩
    obtain ⟨hindex, rfl⟩ := h.seen.inv.same_known h.seen.known hknown
    exact ⟨hindex, hheld⟩
  have honly : ∀ held, Holds user requests w (!i) held →
      filePath held = some (oldPath rawRequest) → held = entry := by
    intro held hholds hheld
    have hin : entry ∈ entries (indexOf user w.store) := by
      rw [(hsame held hholds).1]
      exact htakes.1
    exact (h.seen.inv.unique (!i) held entry _ hholds hin hheld hpath).symm
  refine ⟨Seen.turn hpair h.seen hj hturn, fun key hkey ↦ ?_, ?_⟩
  · rcases hturn.cell_of_ne_none (h.arrived key hkey) with hthere | ⟨held, hheld, hholds, -⟩
    · exact hthere
    · exact absurd hheld (filePath_ne_target hrequest htakes (hsame held hholds).2)
  rcases h.left with hcells | hholds | ⟨hchanged, hgone⟩
  · by_cases hlost : ∀ key ∈ todo, key ∈ fileKeys entry →
        v.store (fileRow user (oldPath rawRequest), key) ≠ none
    · exact .inl hlost
    · push Not at hlost
      obtain ⟨key, hkey, hin, hnone⟩ := hlost
      rcases hturn.cell_of_ne_none (hcells key hkey hin) with hthere | ⟨held, hheld, hholds, hafter⟩
      · exact absurd hnone hthere
      · obtain rfl := honly held hholds hheld
        exact .inr (.inl hafter)
  · have hin : entry ∈ entries (indexOf user w.store) := by
      rw [(hsame entry hholds).1]
      exact htakes.1
    exact .inr (hturn.holds_or_gone hpair h.seen.inv hholds hin hpath
      fun rawRequest' hmove ↦ oldPath_ne hpair hrequest hmove)
  · refine .inr (.inr ⟨hturn.changed_mono hchanged, ?_⟩)
    rw [hturn.index_of_changed h.seen.inv hchanged]
    exact hgone

theorem lasting_moving {arrived : Bytes → Prop} {todo : List Bytes}
    (hrequest : requests i = .moveFile rawRequest) (htakes : (requests i).Takes index entry)
    (h : Moving user requests i rawRequest index entry arrived todo w) :
    Lasting (contract user requests i) i
      (Moving user requests i rawRequest index entry arrived todo) w :=
  lasting_turns (fun _ _ _ hj hturn h ↦ h.turn hpair hrequest htakes hj hturn) h

/-! ## One chunk -/

theorem meets_getMoved {arrived : Bytes → Prop} {key : Bytes} {todo : List Bytes}
    (hrequest : requests i = .moveFile rawRequest) (htakes : (requests i).Takes index entry)
    (hkey : key ∈ fileKeys entry ∨ fileKeys entry = [])
    (h : Lasting (contract user requests i) i
      (Moving user requests i rawRequest index entry arrived (key :: todo)) w) :
    Meets execute (contract user requests i) i
      (fun _ ↦ Moving user requests i rawRequest index entry arrived (key :: todo))
      (Failed user requests False i) (KVClient.get (fileRow user (oldPath rawRequest)) key) w := by
  apply meets_perform
  intro v hv _ _
  have hnow := h v hv
  have hself := known_fetch (w := v) (i := i) user (oldPath rawRequest) key
  have hturn : Turn user requests i v
      (v.answer execute i () (.get (fileRow user (oldPath rawRequest)) key)) := by
    refine .fetch _ key ⟨rawRequest, hrequest⟩ fun hnone other hother hholds ↦ ?_
    obtain ⟨_, -, htakes'⟩ := hholds
    have hpath := filePath_of_takes hrequest htakes'
    obtain rfl := hnow.seen.inv.unique i entry other _ ⟨index, hnow.seen.known, htakes⟩ hother
      (filePath_of_takes hrequest htakes) hpath
    rcases hnow.left with hcells | hheld | ⟨-, hgone⟩
    · left
      rcases hkey with hin | hempty
      · exact absurd hnone (hcells key List.mem_cons_self hin)
      · intro path key' _ hin
        rw [hempty] at hin
        exact absurd hin List.not_mem_nil
    · exact .inr hheld
    · exact absurd hpath (fileCount_eq_zero_iff.mp hgone other hother)
  refine ⟨hturn, ?_⟩
  have hstore := store_get (w := v) (i := i) (fileRow user (oldPath rawRequest)) key
  cases hcell : v.store (fileRow user (oldPath rawRequest), key) with
  | some value =>
    have hanswer : (execute () (.get (fileRow user (oldPath rawRequest)) key) v.store).2 =
        .ok value := by simp only [execute, hcell]
    rw [hanswer]
    apply lasting_moving hpair hrequest htakes
    rw [if_neg (by rw [hcell]; exact Option.some_ne_none value)] at hself
    refine ⟨Seen.own hpair hnow.seen hturn hself (by rw [hstore]), ?_, ?_⟩
    · rw [hstore]
      exact hnow.arrived
    · rw [hstore, changed_get]
      refine hnow.left.imp_right (Or.imp_left fun hheld ↦ ?_)
      exact hheld.of_known (known_answer_of_ne (Bool.not_ne_self i) _)
  | none =>
    have hanswer : (execute () (.get (fileRow user (oldPath rawRequest)) key) v.store).2 =
        .error .kvNotFound := by simp only [execute, hcell]
    rw [hanswer]
    apply lasting_failed hpair
    rw [Failed, if_neg Thrown.noConfusion]
    refine fun _ ↦ ⟨hnow.seen.inv.turn hpair hturn, fun other hholds ↦ ?_⟩
    obtain ⟨index', hread, -⟩ := hholds
    rw [if_pos hcell] at hself
    rw [hself] at hread
    cases hread

theorem meets_putMoved {arrived : Bytes → Prop} {key : Bytes} {todo : List Bytes}
    (hrequest : requests i = .moveFile rawRequest) (htakes : (requests i).Takes index entry)
    (value : Bytes)
    (h : Lasting (contract user requests i) i
      (Moving user requests i rawRequest index entry arrived todo) w) :
    Meets execute (contract user requests i) i
      (fun _ ↦ Moving user requests i rawRequest index entry (fun k ↦ arrived k ∨ k = key) todo)
      (Failed user requests False i)
      (put (fileRow user (targetPath rawRequest)) key value) w := by
  apply meets_perform
  intro v hv _ _
  have hnow := h v hv
  have hturn : Turn user requests i v (v.answer execute i ()
      (.put (fileRow user (targetPath rawRequest)) key value)) := .put _ key value
  have hindex : indexOf user (v.answer execute i ()
      (.put (fileRow user (targetPath rawRequest)) key value)).store = indexOf user v.store :=
    indexOf_update_of_ne (fileRow_ne_user user _) _ key _
  refine ⟨hturn, lasting_moving hpair hrequest htakes ⟨?_, ?_, ?_⟩⟩
  · exact Seen.own hpair hnow.seen hturn (known_put user _ key value i) hindex
  · intro k hk
    apply update_some_ne_none value
    intro hne
    rcases hk with hk | rfl
    · exact hnow.arrived k hk
    · exact absurd rfl hne
  · rw [changed_put, hindex]
    refine hnow.left.imp (fun hcells k hk hin ↦ ?_) (Or.imp_left fun hheld ↦ ?_)
    · exact update_some_ne_none value fun _ ↦ hcells k hk hin
    · exact hheld.of_known (known_put user _ key value _)

theorem meets_delMoved {arrived : Bytes → Prop} {key : Bytes} {todo : List Bytes}
    (hrequest : requests i = .moveFile rawRequest) (htakes : (requests i).Takes index entry)
    (hkey : key ∉ todo)
    (h : Lasting (contract user requests i) i
      (Moving user requests i rawRequest index entry arrived (key :: todo)) w) :
    Meets execute (contract user requests i) i
      (fun _ ↦ Moving user requests i rawRequest index entry arrived todo)
      (Failed user requests False i) (del (fileRow user (oldPath rawRequest)) key) w := by
  have hpath := filePath_of_takes hrequest htakes
  have hrows : fileRow user (targetPath rawRequest) ≠ fileRow user (oldPath rawRequest) := by
    intro heq
    apply filePath_ne_target hrequest htakes htakes.1
    rw [hpath, fileRow_injective user heq]
  apply meets_perform
  intro v hv _ _
  have hnow := h v hv
  have hturn : Turn user requests i v (v.answer execute i ()
      (.del (fileRow user (oldPath rawRequest)) key)) :=
    .erase entry _ key ⟨index, hnow.seen.known, htakes⟩ hpath
  have hindex : indexOf user (v.answer execute i ()
      (.del (fileRow user (oldPath rawRequest)) key)).store = indexOf user v.store :=
    indexOf_update_of_ne (fileRow_ne_user user _) _ key none
  refine ⟨hturn, lasting_moving hpair hrequest htakes ⟨?_, ?_, ?_⟩⟩
  · exact Seen.own hpair hnow.seen hturn (known_del user _ key i) hindex
  · intro k hk hnone
    apply hnow.arrived k hk
    exact (Function.update_of_ne (fun heq ↦ hrows (Prod.mk.inj heq).1) _ _).symm.trans hnone
  · rw [changed_del, hindex]
    refine hnow.left.imp (fun hcells k hk hin hnone ↦ ?_) (Or.imp_left fun hheld ↦ ?_)
    · apply hcells k (List.mem_cons_of_mem key hk) hin
      refine (Function.update_of_ne (fun heq ↦ ?_) _ _).symm.trans hnone
      obtain rfl := (Prod.mk.inj heq).2
      exact hkey hk
    · exact hheld.of_known (known_del user _ key _)

theorem meets_moveChunk {arrived : Bytes → Prop} {key : Bytes} {todo : List Bytes}
    (hrequest : requests i = .moveFile rawRequest) (htakes : (requests i).Takes index entry)
    (hkey : key ∈ fileKeys entry ∨ fileKeys entry = []) (hnew : key ∉ todo)
    (h : Lasting (contract user requests i) i
      (Moving user requests i rawRequest index entry arrived (key :: todo)) w) :
    Meets execute (contract user requests i) i
      (fun _ ↦ Moving user requests i rawRequest index entry (fun k ↦ arrived k ∨ k = key) todo)
      (Failed user requests False i)
      (moveChunk (fileRow user (oldPath rawRequest)) (fileRow user (targetPath rawRequest)) key)
      w := by
  refine Meets.bind (meets_getMoved hpair hrequest htakes hkey h) fun value v hv ↦ ?_
  refine Meets.bind (meets_putMoved hpair hrequest htakes value hv) fun _ u hu ↦ ?_
  exact meets_delMoved hpair hrequest htakes hnew hu

/-! ## A pass -/

/-- A file that is to be moved has its chunks when the index is read, unless it is being deleted. -/
theorem meets_lookMove {E : Thrown → KVWorld Bool → Prop}
    (hrequest : requests i = .moveFile rawRequest)
    (h : Lasting (contract user requests i) i (Ready user requests i) w) :
    Meets execute (contract user requests i) i
      (fun index v ↦ Seen user requests False i index v ∧ ∀ entry, (requests i).Takes index entry →
        (fileKeys entry).Nodup ∧
          Moving user requests i rawRequest index entry (fun _ ↦ False) (fileKeys entry) v) E
      (getdefault user (lit "storage") []) w := by
  apply meets_getIndex
  intro v hv _
  have hready := h v hv
  have hseen := hready.seen hpair False.elim
  have hstore := store_get (w := v) (i := i) user (lit "storage")
  have hmoving : ∀ entry, (requests i).Takes (indexOf user v.store) entry →
      Moving user requests i rawRequest (indexOf user v.store) entry (fun _ ↦ False)
        (fileKeys entry) (v.answer execute i () (.get user (lit "storage"))) := by
    intro entry htakes
    have hpath := filePath_of_takes hrequest htakes
    refine ⟨hseen, fun _ ↦ False.elim, ?_⟩
    rw [hstore]
    rcases hready.inv.stored entry htakes.1 with hstored | ⟨j, hholds⟩
    · exact .inl fun key hkey _ ↦ hstored _ key hpath hkey
    · by_cases hj : j = i
      · subst hj
        have hgone := (hready.gone rawRequest hrequest entry hholds).2
        exact absurd hpath (fileCount_eq_zero_iff.mp hgone entry htakes.1)
      · obtain rfl := Bool.eq_not.mpr hj
        exact .inr (.inl (hholds.of_known (known_answer_of_ne hj _)))
  refine ⟨hready.look, fun u hu ↦ ⟨lasting_seen hpair hseen u hu, fun entry htakes ↦ ⟨?_, ?_⟩⟩⟩
  · exact hready.inv.keys i rawRequest hrequest entry htakes.1 (filePath_of_takes hrequest htakes)
  · exact lasting_moving hpair hrequest htakes (hmoving entry htakes) u hu

omit hpair in
/-- The entry of a file under another path. -/
theorem replaces_move (hrequest : requests i = .moveFile rawRequest) {store : Store}
    {front rest : List Bytes} {keys : Bytes}
    (hsplit : split index comma = front ++ (oldPath rawRequest ++ colon :: keys) :: rest)
    (htakes : (requests i).Takes index (oldPath rawRequest ++ colon :: keys))
    (hcount : fileCount (oldPath rawRequest) index ≤ 1)
    (hcomma : comma ∉ targetPath rawRequest) (hcolon : colon ∉ targetPath rawRequest)
    (harrived : ∀ key ∈ fileKeys (oldPath rawRequest ++ colon :: keys),
      store (fileRow user (targetPath rawRequest), key) ≠ none) :
    Replaces user requests i store index
      (join (front ++ (targetPath rawRequest ++ colon :: keys) :: rest) (lit ",")) := by
  have hpath := filePath_of_takes hrequest htakes
  obtain ⟨-, -, hcolon'⟩ := filePath_eq_some_iff.mp hpath
  have hpath' := filePath_append hcolon keys
  have hkeys : fileKeys (targetPath rawRequest ++ colon :: keys) =
      fileKeys (oldPath rawRequest ++ colon :: keys) := by
    rw [fileKeys_append hcolon, fileKeys_append hcolon']
  have hplain : comma ∉ targetPath rawRequest ++ colon :: keys := by
    have hold := not_mem_of_mem_split (mem_entries.mp htakes.1).1
    rw [List.mem_append, not_or] at hold ⊢
    exact ⟨hcomma, hold.2⟩
  obtain ⟨hentries, hentries'⟩ := entries_replace hsplit (List.append_ne_nil_of_right_ne_nil _
    (List.cons_ne_nil colon keys)) (List.append_ne_nil_of_right_ne_nil _
    (List.cons_ne_nil colon keys)) hplain
  generalize front.filter (· ≠ []) = first at hentries hentries'
  generalize rest.filter (· ≠ []) = last at hentries hentries'
  have hothers : ∀ entry, entry ∈ first ∨ entry ∈ last →
      entry ∈ entries index ∧ filePath entry ≠ some (oldPath rawRequest) :=
    fun entry hentry ↦ others_of_fileCount hentries hpath hcount hentry
  have hzero : fileCount (targetPath rawRequest) index = 0 :=
    fileCount_eq_zero_iff.mpr fun entry hentry ↦ filePath_ne_target hrequest htakes hentry
  have hcases : ∀ entry ∈ entries (join (front ++ (targetPath rawRequest ++ colon :: keys) :: rest)
      (lit ",")), entry = targetPath rawRequest ++ colon :: keys ∨ entry ∈ first ∨ entry ∈ last := by
    rw [hentries']
    intro entry hentry
    rwa [List.mem_append, List.mem_cons, or_left_comm] at hentry
  refine ⟨fun entry hentry ↦ ?_, fun path _ hle ↦ ?_, ?_⟩
  · rcases hcases entry hentry with rfl | hold
    · right
      constructor
      · intro path key hnamed hkey
        obtain rfl := Option.some.inj (hpath'.symm.trans hnamed)
        exact harrived key (by rwa [hkeys] at hkey)
      · intro path hnamed _
        obtain rfl := Option.some.inj (hpath'.symm.trans hnamed)
        exact hzero
    · left
      obtain ⟨hin, hne⟩ := hothers entry hold
      exact ⟨hin, fun h ↦ hne (filePath_of_takes hrequest h)⟩
  · rw [fileCount, hentries', List.countP_append, List.countP_cons]
    rw [fileCount, hentries, List.countP_append, List.countP_cons] at hle
    rw [fileCount, hentries, List.countP_append, List.countP_cons] at hzero
    by_cases hnamed : namesFile path (targetPath rawRequest ++ colon :: keys) = true
    · obtain rfl := Option.some.inj (hpath'.symm.trans (namesFile_iff.mp hnamed))
      rw [if_pos hnamed]
      omega
    · rw [if_neg hnamed]
      omega
  · intro hdistinct j rawRequest' hmove entry hentry hnamed
    rcases hcases entry hentry with rfl | hold
    · rw [hkeys]
      exact hdistinct i rawRequest hrequest _ htakes.1 hpath
    · exact hdistinct j rawRequest' hmove entry (hothers entry hold).1 hnamed

omit hpair in
theorem replaces_same (hnothing : ∀ entry, ¬(requests i).Takes index entry) (store : Store) :
    Replaces user requests i store index index :=
  ⟨fun entry hentry ↦ .inl ⟨hentry, hnothing entry⟩, fun _ _ hcount ↦ hcount, fun hkeys ↦ hkeys⟩

omit hpair in
/-- The loop runs over the keys, or over one empty key if there is none. -/
theorem mem_fileKeys_or {path keys key : Bytes} (hcolon : colon ∉ path)
    (hkey : key ∈ split keys plus) :
    key ∈ fileKeys (path ++ colon :: keys) ∨ fileKeys (path ++ colon :: keys) = [] := by
  rw [fileKeys_append hcolon]
  split
  · exact .inr rfl
  · exact .inl hkey

omit hpair in
theorem nodup_split {path keys : Bytes} (hcolon : colon ∉ path)
    (h : (fileKeys (path ++ colon :: keys)).Nodup) : (split keys plus).Nodup := by
  rw [fileKeys_append hcolon] at h
  split at h
  · next hempty =>
    rw [hempty]
    exact List.nodup_singleton []
  · exact h

/-- In the loop over the keys of an entry. -/
structure MovingRest (user : Bytes) (requests : Bool → Update) (i : Bool)
    (rawRequest index keys : Bytes) (todo : List Bytes) (w : KVWorld Bool) : Prop where
  moving : Moving user requests i rawRequest index (oldPath rawRequest ++ colon :: keys)
    (fun key ↦ key ∈ split keys plus ∧ key ∉ todo) todo w
  nodup : todo.Nodup
  subset : ∀ key ∈ todo, key ∈ split keys plus

theorem meets_moveChunks (hrequest : requests i = .moveFile rawRequest) {keys : Bytes}
    (htakes : (requests i).Takes index (oldPath rawRequest ++ colon :: keys))
    (h : Lasting (contract user requests i) i
      (MovingRest user requests i rawRequest index keys (split keys plus)) w) :
    Meets execute (contract user requests i) i
      (fun _ ↦ MovingRest user requests i rawRequest index keys []) (Failed user requests False i)
      (Prog.forEach (moveChunk (fileRow user (oldPath rawRequest))
        (fileRow user (targetPath rawRequest))) (split keys plus)) w := by
  obtain ⟨-, -, hcolon⟩ := filePath_eq_some_iff.mp (filePath_of_takes hrequest htakes)
  apply meets_forEach (I := MovingRest user requests i rawRequest index keys) h
  intro key todo v hv
  obtain ⟨hnew, hnodup⟩ := List.nodup_cons.mp hv.now.nodup
  have hsubset := hv.now.subset
  have hkey := mem_fileKeys_or hcolon (hsubset key List.mem_cons_self)
  apply (meets_moveChunk hpair hrequest htakes hkey hnew fun u hu ↦ (hv u hu).moving).mono ?_
    fun _ _ h ↦ h
  intro _ u hu
  refine ⟨⟨hu.seen, ?_, hu.left⟩, hnodup, fun k hk ↦ hsubset k (List.mem_cons_of_mem key hk)⟩
  rintro k ⟨hk, hdone⟩
  apply hu.arrived
  by_cases heq : k = key
  · exact .inr heq
  · refine .inl ⟨hk, ?_⟩
    rw [List.mem_cons, not_or]
    exact ⟨heq, hdone⟩

omit hpair in
/-- The entry of the file is taken when no entry begins with the target path. -/
theorem takes_of_split (hrequest : requests i = .moveFile rawRequest) {front rest : List Bytes}
    {keys : Bytes}
    (hsplit : split index comma = front ++ (oldPath rawRequest ++ colon :: keys) :: rest)
    (hcolon : colon ∉ oldPath rawRequest)
    (hfree : ¬∃ other ∈ split index comma, targetPath rawRequest <+: other) :
    (requests i).Takes index (oldPath rawRequest ++ colon :: keys) := by
  have hmem : oldPath rawRequest ++ colon :: keys ∈ split index comma := by
    rw [hsplit]
    exact List.mem_append_right _ List.mem_cons_self
  have hne : oldPath rawRequest ++ colon :: keys ≠ [] :=
    List.append_ne_nil_of_right_ne_nil _ (List.cons_ne_nil colon keys)
  refine ⟨mem_entries.mpr ⟨hmem, hne⟩, ?_⟩
  rw [hrequest]
  exact ⟨filePath_append hcolon keys, fun other hother hbegins ↦ hfree ⟨other, hother, hbegins⟩⟩

/-- The compare-and-set of the index with the file under its new path. -/
theorem meets_replaceMoved (hrequest : requests i = .moveFile rawRequest) {front rest : List Bytes}
    {keys : Bytes}
    (hsplit : split index comma = front ++ (oldPath rawRequest ++ colon :: keys) :: rest)
    (htakes : (requests i).Takes index (oldPath rawRequest ++ colon :: keys))
    (h : Lasting (contract user requests i) i
      (MovingRest user requests i rawRequest index keys []) w) :
    Meets execute (contract user requests i) i (fun _ ↦ Released user requests i)
      (Failed user requests False i) (cput user (lit "storage") index
        (join (front ++ (targetPath rawRequest ++ colon :: keys) :: rest) (lit ","))) w := by
  apply meets_replace hpair fun v hv ↦ (h v hv).moving.seen
  intro v hv hcareful heq
  have hmoving := (h v hv).moving
  have hpath := filePath_of_takes hrequest htakes
  obtain ⟨-, -, hcolon⟩ := filePath_eq_some_iff.mp hpath
  have hnamed : fileCount (oldPath rawRequest) index ≠ 0 := fun hzero ↦
    fileCount_eq_zero_iff.mp hzero _ htakes.1 hpath
  have hplain := hcareful _ _ rfl
  simp only [hrequest] at hplain
  obtain ⟨hcomma, hcolon'⟩ := (if_pos heq).mp (hplain hnamed)
  have hcount := hmoving.seen.inv.count _ (single_oldPath hpair hrequest)
  rw [heq] at hcount
  apply replaces_move hrequest hsplit htakes hcount hcomma hcolon'
  intro key hkey
  apply hmoving.arrived
  rw [fileKeys_append hcolon] at hkey
  split at hkey
  · exact absurd hkey List.not_mem_nil
  · exact ⟨hkey, List.not_mem_nil⟩

theorem meets_moveFilePass (hrequest : requests i = .moveFile rawRequest)
    (h : Lasting (contract user requests i) i (Ready user requests i) w) :
    Meets execute (contract user requests i) i (AtEnd user requests i)
      (Failed user requests False i) (moveFilePass user (oldPath rawRequest)
        (jsonParam rawRequest (lit "target_path"))) w := by
  refine Meets.bind (meets_lookMove hpair hrequest h) fun index v hlooked ↦ ?_
  have hseen : Lasting (contract user requests i) i (Seen user requests False i index) v :=
    fun u hu ↦ (hlooked u hu).1
  have hback : Meets execute (contract user requests i) i
      (fun _ u ↦ (contract user requests i).Others i v u) (Failed user requests False i)
      (back (jsonParam rawRequest (lit "target_path"))) v := by
    unfold back
    split
    · exact fun u hu ↦ hu
    · exact fun u _ ↦ failed_of_not_isKVError rfl
  refine Meets.bind hback fun _ u hu ↦ ?_
  have hlater := hu.now
  split
  · next hduplicate =>
    apply lasting_released hpair
    refine ⟨(hseen u hlater).inv, fun entry hholds ↦ ?_⟩
    obtain ⟨index', hknown, -, htakes⟩ := hholds
    obtain rfl := Option.some.inj (hknown.symm.trans (hseen u hlater).known)
    rw [hrequest] at htakes
    obtain ⟨path, hpath, hprefix'⟩ := hduplicate
    exact htakes.2 path hpath hprefix'
  · next hfree =>
    have hseen' : Lasting (contract user requests i) i (Seen user requests False i index) u :=
      hseen.later hlater
    rcases moveFileEntry_cases user (oldPath rawRequest) (targetPath rawRequest)
      (split index comma) with ⟨hnone, hmove⟩ | ⟨front, keys, rest, hsplit, hcolon, hmove⟩
    · have hnothing : ∀ entry, ¬(requests i).Takes index entry := fun entry htakes ↦
        hnone entry (mem_entries.mp htakes.1).1 (filePath_of_takes hrequest htakes)
      change Meets execute (contract user requests i) i _ _
        (moveFileEntry user (oldPath rawRequest) (targetPath rawRequest) (split index comma) >>= _) u
      rw [hmove, Prog.ret_bind, join_split]
      exact Meets.bind (meets_replace hpair hseen' fun x _ _ _ ↦ replaces_same hnothing x.store)
        fun _ x hx ↦ hx
    · have htakes := takes_of_split hrequest hsplit hcolon hfree
      have hrest : Lasting (contract user requests i) i
          (MovingRest user requests i rawRequest index keys (split keys plus)) u := by
        intro x hx
        obtain ⟨hnodup, hmoving⟩ := (hlooked x (hlater.trans hx)).2 _ htakes
        refine ⟨⟨hmoving.seen, fun key hkey ↦ absurd hkey.1 hkey.2, ?_⟩, nodup_split hcolon hnodup,
          fun _ hkey ↦ hkey⟩
        exact hmoving.left.imp_left fun hcells key _ hkey ↦ hcells key hkey hkey
      have hmoved : Meets execute (contract user requests i) i
          (fun paths x ↦ paths = front ++ (targetPath rawRequest ++ colon :: keys) :: rest ∧
            MovingRest user requests i rawRequest index keys [] x) (Failed user requests False i)
          (moveFileEntry user (oldPath rawRequest) (targetPath rawRequest) (split index comma)) u := by
        rw [hmove]
        exact Meets.bind (meets_moveChunks hpair hrequest htakes hrest)
          fun _ x hx y hy ↦ ⟨rfl, hx y hy⟩
      refine Meets.bind hmoved fun paths x hx ↦ ?_
      obtain rfl := hx.now.1
      exact Meets.bind (meets_replaceMoved hpair hrequest hsplit htakes fun y hy ↦ (hx y hy).2)
        fun _ y hy ↦ hy

theorem meets_moveFile (hrequest : requests i = .moveFile rawRequest)
    (h : Lasting (contract user requests i) i (Ready user requests i) w) (n : ℕ) :
    Meets execute (contract user requests i) i (AtEnd user requests i) (fun _ _ ↦ True)
      (handleMoveFile user rawRequest n) w := by
  apply meets_catch (meets_retry (meets_moveFilePass hpair hrequest h))
  · exact fun e v he hv u hu ↦ hv u hu he
  · exact fun _ _ _ _ ↦ trivial

end Move

/-! ## Both requests -/

section Both

variable {user : Bytes} {requests : Bool → Update}

theorem meets_job (hpair : MoveAndOther requests) {i : Bool} {w : KVWorld Bool} {n : ℕ}
    (h : Lasting (contract user requests i) i (AtEnd user requests i (.again n)) w) :
    Meets execute (contract user requests i) i (AtEnd user requests i) (fun _ _ ↦ True)
      ((requests i).job user n) w := by
  have hready : Lasting (contract user requests i) i (Ready user requests i) w :=
    fun v hv ↦ (h v hv).1
  cases hrequest : requests i with
  | createFolder rawRequest =>
    exact meets_createFolder hpair hrequest (fun v hv ↦ ⟨hready v hv, False.elim⟩) n
  | uploadFile rawRequest =>
    exact meets_uploadFile hpair hrequest (fun v hv ↦ ⟨hready v hv, False.elim⟩) n
  | moveFile rawRequest => exact meets_moveFile hpair hrequest hready n
  | deleteFile rawRequest => exact meets_deleteFile hpair hrequest h

/-- Before both requests nothing has been read, and nothing is held. -/
theorem ready_start {store : Store}
    (hpaths : ((entries (indexOf user store)).map entryPath).Nodup)
    (hstored : ∀ entry ∈ entries (indexOf user store), Stored user store entry)
    (hkeys : DistinctKeys requests (indexOf user store)) (i : Bool) :
    Ready user requests i { store := store } := by
  have hunread : ∀ j index, known user { store := store } j ≠ some index :=
    fun _ index ↦ (Option.some_ne_none index).symm
  have hholds : ∀ j entry, ¬Holds user requests { store := store } j entry :=
    fun j entry ⟨index, hread, _⟩ ↦ hunread j index hread
  have hchanged : ∀ j, ¬Changed { store := store } j :=
    fun j ⟨call, hmem, _⟩ ↦ absurd hmem List.not_mem_nil
  refine ⟨⟨fun entry hentry ↦ .inl (hstored entry hentry), ?_, ?_, hkeys, ?_, ?_, ?_⟩,
    hchanged i, ?_⟩
  · exact fun j entry _ _ h ↦ absurd h (hholds j entry)
  · exact fun path _ ↦ fileCount_le_one hpaths path
  · exact fun j index hread ↦ absurd hread (hunread j index)
  · exact fun j index hread ↦ absurd hread (hunread j index)
  · exact fun j index hread ↦ absurd hread (hunread j index)
  · exact fun _ _ entry h ↦ absurd h (hholds i entry)

/-- Every call of the requests is as careful as it has to be. -/
def Undisturbed (user : Bytes) (requests : Bool → Update)
    (s : Shared Bool KVOp KVOp.Answer Thrown Response Store) (event : Bool × Unit) : Prop :=
  ∀ op next, s.now event.1 = .call op next → Careful user (requests event.1) op s.toWorld

/-- In such a run all files of the index have their chunks when both requests have returned. -/
theorem files_stored (user : Bytes) (requests : Bool → Update) (hpair : MoveAndOther requests)
    {store : Store} (hpaths : ((entries (indexOf user store)).map entryPath).Nodup)
    (hstored : ∀ entry ∈ entries (indexOf user store), Stored user store entry)
    (hkeys : DistinctKeys requests (indexOf user store))
    {s : Shared Bool KVOp KVOp.Answer Thrown Response Store}
    (h : Reaches (machine execute fun i ↦ (requests i).job user) (Undisturbed user requests)
      (Shared.start (fun i ↦ (requests i).job user) store) s)
    (hreturned : ∀ i, ∃ response, s.Returned i response) :
    ∀ entry ∈ entries (indexOf user s.store), Stored user s.store entry := by
  have hmeets : ∀ i, Meets execute (contract user requests i) i (AtEnd user requests i)
      (fun _ _ ↦ True) (s.now i) s.toWorld := by
    have hcompatible : ∀ i j w v, i ≠ j → (contract user requests i).guarantee w v →
        (contract user requests j).rely w v :=
      fun i j w v hij hturn ↦ Relation.ReflTransGen.single ⟨i, hij, hturn⟩
    refine reaches_meets (fun i v hv ↦ ?_) (fun i n w hw ↦ meets_job hpair hw) hcompatible h
    exact ⟨lasting_ready hpair (ready_start hpaths hstored hkeys i) v hv,
      fun hzero ↦ absurd rfl hzero, Nat.zero_le 1⟩
  have hreleased : ∀ i, Released user requests i s.toWorld := by
    intro i
    obtain ⟨response, hdone⟩ := hreturned i
    exact post_of_returned (C := contract user requests) (P := AtEnd user requests)
      (E := fun _ _ _ ↦ True) (hmeets i) hdone
  intro entry hentry
  rcases (hreleased false).inv.stored entry hentry with hstored | ⟨i, hholds⟩
  · exact hstored
  · exact absurd hholds ((hreleased i).holds entry)

end Both

/-! ## A move and a new folder -/

/-- The user `a` moves the file `f` to `g` and makes the folder `d`. -/
def moveAndFolder : Bool → Update
  | false => .moveFile (lit "\r\n\r\n\x7b\"old_path\":\"f\",\"target_path\":\"g\"\x7d")
  | true => .createFolder (lit "\r\n\r\n\x7b\"folderName\":\"d\"\x7d")

/-- The file has one chunk. -/
def oneFile : Store :=
  Function.update (Function.update (fun _ ↦ none) (lit "a", lit "storage") (some (lit "f:k0")))
    (lit "a:f", lit "k0") (some (lit "x"))

theorem moveAndOther_moveAndFolder : MoveAndOther moveAndFolder :=
  ⟨⟨_, rfl⟩, by decide +kernel⟩

theorem entries_oneFile : entries (indexOf (lit "a") oneFile) = [lit "f:k0"] := by decide +kernel

theorem stored_oneFile : ∀ entry ∈ entries (indexOf (lit "a") oneFile),
    Stored (lit "a") oneFile entry := by
  rw [entries_oneFile]
  intro entry hentry path key hpath hkey
  obtain rfl := List.mem_singleton.mp hentry
  obtain rfl : lit "f" = path := Option.some.inj (by rw [← hpath]; decide +kernel)
  have hkeys : fileKeys (lit "f:k0") = [lit "k0"] := by decide +kernel
  rw [hkeys] at hkey
  obtain rfl := List.mem_singleton.mp hkey
  decide +kernel

theorem distinctKeys_oneFile : DistinctKeys moveAndFolder (indexOf (lit "a") oneFile) := by
  rw [DistinctKeys, entries_oneFile]
  intro i rawRequest _ entry hentry _
  obtain rfl := List.mem_singleton.mp hentry
  decide +kernel

theorem undisturbed_of_comparesPresent
    (s : Shared Bool KVOp KVOp.Answer Thrown Response Store) (event : Bool × Unit)
    (h : comparesPresent (lit "a") false s event = true) :
    Undisturbed (lit "a") moveAndFolder s event := by
  rintro op next hnow v1 v2 rfl
  simp only [comparesPresent, hnow, decide_eq_true_eq] at h
  cases hi : event.1 with
  | false =>
    intro _
    rw [if_pos (h.resolve_left fun hne ↦ hne hi)]
    decide +kernel
  | true =>
    intro _
    decide +kernel

/-- The folder's request has read the index before the move, so that its first comparison fails. -/
theorem files_stored_interleaved :
    ∃ s : Shared Bool KVOp KVOp.Answer Thrown Response Store,
      indexOf (lit "a") s.store = lit "g:k0,d/" ∧
        s.store (fileRow (lit "a") (lit "g"), lit "k0") ≠ none := by
  have hrun : (run ((machine execute fun i ↦ (moveAndFolder i).job (lit "a")).restrict
      (comparesPresent (lit "a") false))
      (Shared.start (fun i ↦ (moveAndFolder i).job (lit "a")) oneFile)
      [(false, ()), (true, ()), (false, ()), (false, ()), (false, ()), (false, ()), (true, ()),
        (true, ()), (true, ()), (true, ())]).map
      (fun s ↦ decide (answered s =
        some (lit "Successfully moved file", lit "Folder created") ∧
        indexOf (lit "a") s.store = lit "g:k0,d/")) = some true := by
    decide +kernel
  obtain ⟨s, hreach, hcheck⟩ := reaches_of_run_restrict undisturbed_of_comparesPresent hrun
  obtain ⟨hanswered, hindex⟩ := of_decide_eq_true hcheck
  have hreturned := exists_returned_of_answered hanswered
  have hall := files_stored (lit "a") moveAndFolder moveAndOther_moveAndFolder
    (by rw [entries_oneFile]; exact List.nodup_singleton _) stored_oneFile distinctKeys_oneFile hreach
    hreturned
  refine ⟨s, hindex, hall (lit "g:k0") ?_ (lit "g") (lit "k0") (by decide +kernel)
    (by decide +kernel)⟩
  rw [hindex]
  decide +kernel

/-- The folder is made while the chunk is on its way. -/
theorem moved_file_lost :
    ¬∀ (user : Bytes) (requests : Bool → Update), MoveAndOther requests → ∀ store : Store,
      ((entries (indexOf user store)).map entryPath).Nodup →
      (∀ entry ∈ entries (indexOf user store), Stored user store entry) →
      ∀ s : Shared Bool KVOp KVOp.Answer Thrown Response Store,
      Reaches (machine execute fun i ↦ (requests i).job user) anyStep
        (Shared.start (fun i ↦ (requests i).job user) store) s →
      (∀ i, ∃ response, s.Returned i response) →
      ∀ entry ∈ entries (indexOf user s.store), Stored user s.store entry := by
  intro h
  have hrun : (run (machine execute fun i ↦ (moveAndFolder i).job (lit "a"))
      (Shared.start (fun i ↦ (moveAndFolder i).job (lit "a")) oneFile)
      [(false, ()), (false, ()), (false, ()), (false, ()), (true, ()), (true, ()), (false, ()),
        (false, ()), (false, ()), (false, ())]).map
      (fun s ↦ decide (answered s =
        some (lit "Successfully moved file", lit "Folder created") ∧
        indexOf (lit "a") s.store = lit "f:k0,d/" ∧
        s.store (fileRow (lit "a") (lit "f"), lit "k0") = none)) = some true := by
    decide +kernel
  obtain ⟨s, hreach, hcheck⟩ := reaches_of_run_check hrun
  obtain ⟨hanswered, hindex, hlost⟩ := of_decide_eq_true hcheck
  have hreturned := exists_returned_of_answered hanswered
  have hall := h (lit "a") moveAndFolder moveAndOther_moveAndFolder oneFile
    (by rw [entries_oneFile]; exact List.nodup_singleton _) stored_oneFile s hreach hreturned
  refine hall (lit "f:k0") ?_ (lit "f") (lit "k0") (by decide +kernel) (by decide +kernel) hlost
  rw [hindex]
  decide +kernel

end PennCloud.Frontend.FileMoves
