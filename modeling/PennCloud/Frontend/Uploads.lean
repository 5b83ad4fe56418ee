import PennCloud.Frontend.StorageIndex

/-!
# An upload on the atomic map

What `handle_upload_file` does to the cells when it runs alone: the segments of the body under the keys
of the chunks, and the new entry in the index. Up to a size at which the sum of an offset
and the segment size would overflow, the segments make up the body.
-/

open PennCloud.Library.CppString PennCloud.Library.Programs PennCloud.KV.TabletCells
open PennCloud.Frontend.KVClient PennCloud.Frontend.HttpText PennCloud.Frontend.Storage
open PennCloud.Frontend.StorageIndex

namespace PennCloud.Frontend.Uploads

/-! ## Keys -/

theorem segmentSize_toNat : segmentSize.toNat = 2000000 := rfl

theorem chunkKey_injective {m n : ℕ} (h : chunkKey m = chunkKey n) : m = n := by
  have hoffset := decimal_injective (List.append_cancel_left h)
  rw [segmentSize_toNat] at hoffset
  omega

/-- No chunk key is the column of the index. -/
theorem chunkKey_ne_storage (n : ℕ) : chunkKey n ≠ lit "storage" := by
  intro h
  have hletter : 115 ∈ lit "storage" := by decide
  rw [← h] at hletter
  exact not_mem_chunkKey (by decide) (by decide) n hletter

/-! ## Segments -/

/-- The bytes of a body under the key of this number. -/
def segmentOf (body : Bytes) (n : ℕ) : Bytes :=
  (body.drop (n * segmentSize.toNat)).take segmentSize.toNat

theorem flatten_segments_range (body : Bytes) (count : ℕ) :
    ((List.range count).map (segmentOf body)).flatten = body.take (count * segmentSize.toNat) := by
  induction count with
  | zero => simp
  | succ count ih =>
    rw [List.range_succ, List.map_append, List.flatten_append, ih, List.map_singleton,
      List.flatten_singleton, segmentOf, Nat.succ_mul, List.take_add]

/-- The size of the body, converted to `int`, leaves room for one more segment. -/
def FitsInt (body : Bytes) : Prop := (body.length : ℤ) + segmentSize ≤ intMax

theorem sizeToInt_of_fits {body : Bytes} (h : FitsInt body) :
    sizeToInt body.length = body.length := by
  unfold FitsInt segmentSize intMax at h
  exact sizeToInt_natCast (by omega)

theorem lt_chunkCount_iff {body : Bytes} (h : FitsInt body) (n : ℕ) :
    n < chunkCount body.length ↔ n * segmentSize.toNat < body.length := by
  unfold chunkCount
  rw [sizeToInt_of_fits h, segmentSize_toNat]
  unfold segmentSize
  omega

theorem flatten_segments {body : Bytes} (h : FitsInt body) :
    ((List.range (chunkCount body.length)).map (segmentOf body)).flatten = body := by
  rw [flatten_segments_range]
  apply List.take_of_length_le
  exact Nat.not_lt.mp fun hlt ↦ Nat.lt_irrefl _ ((lt_chunkCount_iff h _).mpr hlt)

/-! ## Running the handler -/

theorem run_getdefault (row col default : Bytes) (store : Store) :
    (getdefault row col default).run (execute ()) store =
      (store, .ok ((store (row, col)).getD default)) := by
  unfold getdefault catchKVNotFound
  rw [Prog.run_handle]
  cases hcell : store (row, col) with
  | none =>
    rw [run_get_of_none hcell]
    rfl
  | some value =>
    rw [run_get_of_some hcell]
    rfl

/-- The cells after one segment has been stored. -/
def storeSegment (row body : Bytes) (store : Store) (n : ℕ) : Store :=
  Function.update store (row, chunkKey n) (some (segmentOf body n))

theorem run_uploadChunk {body : Bytes} (h : FitsInt body) {n : ℕ}
    (hn : n * segmentSize.toNat < body.length) (row : Bytes) (store : Store) :
    (uploadChunk row body n).run (execute ()) store = (storeSegment row body store n, .ok ()) := by
  have hoffset : chunkOffset n = ((n * segmentSize.toNat : ℕ) : ℤ) := by
    unfold chunkOffset
    rw [segmentSize_toNat]
    unfold segmentSize
    omega
  have hfits : chunkOffset n + segmentSize ≤ intMax := by
    unfold FitsInt at h
    rw [hoffset]
    omega
  have hlength : (body.drop (n * segmentSize.toNat)).length =
      body.length - n * segmentSize.toNat := List.length_drop
  rw [uploadChunk]
  simp only [if_pos hfits, sizeToInt_of_fits h]
  rw [hoffset, Int.toNat_natCast]
  split
  · exact Prog.run_perform _ _
  · next hlast =>
    have hall : (body.drop (n * segmentSize.toNat)).take
        ((body.length : ℤ) - ((n * segmentSize.toNat : ℕ) : ℤ)).toNat = segmentOf body n := by
      rw [segmentOf, List.take_of_length_le (by omega), List.take_of_length_le]
      rw [hlength, segmentSize_toNat]
      rw [segmentSize_toNat] at hlast
      unfold segmentSize at hlast
      omega
    rw [hall]
    exact Prog.run_perform _ _

theorem run_uploadChunks {body : Bytes} (h : FitsInt body) {ns : List ℕ}
    (hns : ∀ n ∈ ns, n * segmentSize.toNat < body.length) (row : Bytes) (store : Store) :
    (Prog.forEach (uploadChunk row body) ns).run (execute ()) store =
      (ns.foldl (storeSegment row body) store, .ok ()) :=
  Prog.run_forEach (fun n hn store ↦ run_uploadChunk h (hns n hn) row store) store

/-- Cells that are no chunk of the file keep their content. -/
theorem storeSegments_of_ne {row body : Bytes} {key : Bytes × Bytes} {ns : List ℕ}
    (h : ∀ n ∈ ns, key ≠ (row, chunkKey n)) (store : Store) :
    ns.foldl (storeSegment row body) store key = store key := by
  induction ns generalizing store with
  | nil => rfl
  | cons n ns ih =>
    rw [List.foldl_cons, ih fun m hm ↦ h m (List.mem_cons_of_mem n hm)]
    exact Function.update_of_ne (h n List.mem_cons_self) _ _

theorem storeSegments_of_mem {row body : Bytes} {n : ℕ} {ns : List ℕ} (h : n ∈ ns)
    (store : Store) :
    ns.foldl (storeSegment row body) store (row, chunkKey n) = some (segmentOf body n) := by
  induction ns generalizing store with
  | nil => exact absurd h List.not_mem_nil
  | cons m ns ih =>
    rw [List.foldl_cons]
    by_cases hmem : n ∈ ns
    · exact ih hmem _
    · rw [storeSegments_of_ne]
      · obtain rfl : n = m := by
          rcases List.mem_cons.mp h with heq | hin
          · exact heq
          · exact absurd hin hmem
        exact Function.update_self _ _ _
      · intro k hk heq
        obtain rfl := chunkKey_injective (Prod.mk.inj heq).2
        exact hmem hk

/-- The cells after a successful upload. -/
def storeUpload (user body : Bytes) (store : Store) : Store :=
  Function.update
    ((List.range (chunkCount body.length)).foldl
      (storeSegment (fileRow user (lit "untitled")) body) store)
    (user, lit "storage")
    (some (appendEntry ((store (user, lit "storage")).getD []) (uploadEntry body)))

/-- A loop, then the index set from the value that was read before. -/
theorem run_thenReplace {loop : KVProg Unit} {store store' : Store}
    (h : loop.run (execute ()) store = (store', .ok ())) {user : Bytes}
    (hsame : store' (user, lit "storage") = store (user, lit "storage")) (index : Bytes)
    (response : Response) :
    (do
      loop
      cput user (lit "storage") ((store (user, lit "storage")).getD []) index
      return response : KVProg Response).run (execute ()) store =
        (Function.update store' (user, lit "storage") (some index), .ok response) := by
  rw [Prog.run_bind, h]
  dsimp only
  rw [Prog.run_bind, run_cput_of_matches]
  · rfl
  · rw [hsame]
    cases store (user, lit "storage") with
    | none => exact .inr ⟨rfl, rfl⟩
    | some index => exact .inl rfl

theorem run_uploadFileTry {body : Bytes} (h : FitsInt body) (user : Bytes) (store : Store) :
    (uploadFileTry user body).run (execute ()) store =
      if lit "untitled" ∈ split ((store (user, lit "storage")).getD []) comma then
        (store, .ok (corsOk (lit "Failed uploading file: file existed!")))
      else
        (storeUpload user body store, .ok (corsOk (lit "Successfully uploaded file"))) := by
  unfold uploadFileTry
  rw [Prog.run_bind, run_getdefault]
  dsimp only
  split
  · rfl
  · refine run_thenReplace (run_uploadChunks h (fun n hn ↦ ?_) _ store) ?_ _ _
    · exact (lt_chunkCount_iff h n).mp (List.mem_range.mp hn)
    · apply storeSegments_of_ne
      intro n _ heq
      exact chunkKey_ne_storage n (Prod.mk.inj heq).2.symm

/-- The segments of the body are in the row of the file. -/
theorem storeUpload_segment (user : Bytes) {body : Bytes} (store : Store) {n : ℕ}
    (hn : n < chunkCount body.length) :
    storeUpload user body store (fileRow user (lit "untitled"), chunkKey n) =
      some (segmentOf body n) := by
  have hne : (fileRow user (lit "untitled"), chunkKey n) ≠ (user, lit "storage") :=
    fun heq ↦ chunkKey_ne_storage n (Prod.mk.inj heq).2
  rw [storeUpload, Function.update_of_ne hne]
  exact storeSegments_of_mem (List.mem_range.mpr hn) store

end PennCloud.Frontend.Uploads
