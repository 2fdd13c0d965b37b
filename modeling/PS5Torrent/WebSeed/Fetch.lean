import PS5Torrent.WebSeed.Http
import PS5Torrent.WebSeed.Parts

/-!
# Fetching pieces

Against seeds that answer every range request with the bytes asked for
(`Net.Serves`), a fetch that succeeds puts the right bytes in the buffer, and
it succeeds unless an empty file lies strictly inside the piece
(`Torrent.NoEmptyInside`): such a file is requested with a range of no bytes,
which fails.
-/

namespace PS5Torrent

open FileLayout Effect

/-- The URL of a file at a seed. -/
def fileUrl (t : Torrent) (seed : Bytes) (file : TorrentFile) : Option Bytes :=
  if t.isMultiFile then multiFileUrl t seed file else singleFileUrl t seed

/-- The seed answers every range request for a file with exactly the requested bytes. -/
def Net.Serves (net : Net) (t : Torrent) (payload seed : Bytes) : Prop :=
  ∀ j file url host port path, t.outputs[j]? = some file → fileUrl t seed file = some url →
    parseHttpUrl url 256 = some (host, port, path) →
    ∃ addr, net.resolve host = some addr ∧ ∀ (n start length : ℕ), 0 < length →
      start + length ≤ file.size →
      ∃ segments, net.exchange n addr port (rangeRequest path host start length) = some segments ∧
        Answers206 segments (((t.outputSlice payload j file).drop start).take length)

/-- The URLs of the files at the seed are well-formed, and they and the requests
    fit their buffers. -/
def Torrent.SeedWellFormed (t : Torrent) (seed : Bytes) : Prop :=
  ∀ file ∈ t.outputs, ∃ url host port path, fileUrl t seed file = some url ∧
    parseHttpUrl url 256 = some (host, port, path) ∧ ∀ start length : ℕ,
      start + length ≤ file.size → (rangeRequest path host start length).length < 1024

/-- No empty file lies strictly inside the piece. -/
def Torrent.NoEmptyInside (t : Torrent) (index : ℕ) : Prop :=
  t.isMultiFile → ∀ j file, t.files[j]? = some file → file.size = 0 →
    ¬(t.pieceStart index < total TorrentFile.size (t.files.take j) ∧
      total TorrentFile.size (t.files.take j) < t.pieceStart index + t.pieceSize index)

variable {net : Net} {t : Torrent} {payload seed url : Bytes} {file : TorrentFile} {s s' : Fetch}
  {index j start length outPos bufferPos : ℕ}

/-! ## Ranges -/

/-- A request for a nonempty range of a file. -/
theorem httpFetchRange_of_serves (hg : t.Geometry) (hpay : payload.length = t.totalSize.toNat)
    (hserves : net.Serves t payload seed) (hj : t.outputs[j]? = some file)
    (hurl : fileUrl t seed file = some url) {host path : Bytes} {port : ℤ}
    (hparse : parseHttpUrl url 256 = some (host, port, path))
    (hrequest : (rangeRequest path host start length).length < 1024) (hpos : 0 < length)
    (hle : start + length ≤ file.size) :
    httpFetchRange net url start length outPos s =
      .ok () ⟨memcpyAt s.buffer outPos (((t.outputSlice payload j file).drop start).take length),
        s.connections + 1⟩ := by
  obtain ⟨addr, haddr, hexchange⟩ := hserves j file url host port path hj hurl hparse
  obtain ⟨segments, hsegments, hanswer⟩ := hexchange s.connections start length hpos hle
  have hbody : (((t.outputSlice payload j file).drop start).take length).length = length := by
    rw [List.length_take, List.length_drop, length_outputSlice hg hpay hj]
    omega
  have hne : ((t.outputSlice payload j file).drop start).take length ≠ [] :=
    List.ne_nil_of_length_pos (by omega)
  have heq := httpFetchRange_eq outPos (s := s) hne hparse haddr (by rwa [hbody])
    (by rw [hbody]; exact hsegments) hanswer
  rwa [hbody] at heq

/-- A request that succeeds has put the bytes of the range in their place. -/
theorem buffer_of_httpFetchRange (hg : t.Geometry) (hpay : payload.length = t.totalSize.toNat)
    (hserves : net.Serves t payload seed) (hj : t.outputs[j]? = some file)
    (hurl : fileUrl t seed file = some url) (hle : start + length ≤ file.size)
    (h : httpFetchRange net url start length outPos s = .ok () s') :
    0 < length ∧ s'.buffer =
      memcpyAt s.buffer outPos (((t.outputSlice payload j file).drop start).take length) := by
  obtain ⟨hpos, host, port, path, addr, hparse, -, hrequest⟩ := httpFetchRange_eq_ok h
  have hpos := Nat.pos_of_ne_zero hpos
  rw [httpFetchRange_of_serves hg hpay hserves hj hurl hparse hrequest hpos hle] at h
  injection h with _ hs
  exact ⟨hpos, hs ▸ rfl⟩

theorem length_readBody_le (fuel length : ℕ) (sock : List Bytes) :
    (readBody fuel length sock).length ≤ length := by
  induction fuel generalizing length sock with
  | zero => exact Nat.zero_le _
  | succ fuel ih =>
    rw [readBody]
    split
    · exact Nat.zero_le _
    cases hrecv : netRecvSome sock length with
    | none => exact Nat.zero_le _
    | some r =>
      obtain ⟨chunk, sock'⟩ := r
      have hchunk : chunk.length ≤ length := by
        cases sock with
        | nil => cases hrecv
        | cons segment segments =>
          rw [netRecvSome] at hrecv
          split at hrecv
          · cases hrecv
          · obtain ⟨rfl, -⟩ := Prod.mk.inj (Option.some.inj hrecv)
            exact List.length_take_le _ _
      have hrest := ih (length - chunk.length) sock'
      dsimp only
      rw [List.length_append]
      omega

/-- The buffer keeps its length. -/
def KeepsLength (n : ℕ) (s s' : Fetch) : Prop := s.buffer.length = n → s'.buffer.length = n

instance (n : ℕ) : IsPreorder Fetch (KeepsLength n) where
  refl _ := id
  trans _ _ _ h h' hn := h' (h hn)

theorem keepsLength_orFail {α : Type} (n : ℕ) (x : Option α) :
    Respects (KeepsLength n) (orFail x) := by
  cases x with
  | none => exact respects_throw _
  | some a => exact respects_pure a

theorem keepsLength_exchange (n addr : ℕ) (port : ℤ) (request : Bytes) :
    Respects (KeepsLength n) (exchange net addr port request) := by
  intro s hs
  rw [final, exchange]
  cases net.exchange s.connections addr port request with
  | none => exact hs
  | some segments => exact hs

theorem keepsLength_httpFetchRange {n : ℕ} (url : Bytes) (start : ℤ) (h : outPos + length ≤ n) :
    Respects (KeepsLength n) (httpFetchRange net url start length outPos) := by
  refine respects_ite (fun _ => respects_throw _) fun _ => ?_
  refine (keepsLength_orFail n _).bind fun r => (keepsLength_orFail n _).bind fun addr => ?_
  refine respects_ite (fun _ => respects_throw _) fun _ => ?_
  refine (keepsLength_exchange n _ _ _).bind fun sock => ?_
  refine (keepsLength_orFail n _).bind fun r => (keepsLength_orFail n _).bind fun status => ?_
  refine respects_ite (fun _ => respects_throw _) fun _ => ?_
  refine respects_ite (fun _ => respects_throw _) fun _ => ?_
  refine Respects.bind (fun s hs => ?_) fun _ =>
    respects_ite (fun _ => respects_pure _) fun _ => respects_throw _
  have hbody := length_readBody_le length length r.2
  exact (length_memcpyAt (by omega)).trans hs

/-! ## One piece -/

/-- Copies one after the other, each of the bytes at its position, copy the range. -/
theorem buffer_of_forM_parts {act : FileLayout.Part TorrentFile → FetchM Unit} (bufferPos : ℕ)
    (data : Bytes)
    {pos : ℕ}
    {parts : List (FileLayout.Part TorrentFile)}
    (hact : ∀ part ∈ parts, ∀ s s', act part s = .ok () s' → s'.buffer =
      memcpyAt s.buffer (bufferPos + part.pos) ((data.drop part.pos).take part.len))
    (hcont : Contiguous pos parts) (hdata : pos + (parts.map FileLayout.Part.len).sum ≤ data.length)
    (hbuf : bufferPos + pos + (parts.map FileLayout.Part.len).sum ≤ s.buffer.length)
    (h : (parts.forM act) s = .ok ⟨⟩ s') :
    s'.buffer = memcpyAt s.buffer (bufferPos + pos)
      ((data.drop pos).take (parts.map FileLayout.Part.len).sum) := by
  induction parts generalizing pos s with
  | nil =>
    obtain ⟨-, rfl⟩ := pure_eq_ok.1 h
    exact (memcpyAt_nil _ _).symm
  | cons part parts ih =>
    obtain ⟨s₁, hpart, hparts⟩ := forM_cons_eq_ok.1 h
    obtain ⟨rfl, hcont⟩ := hcont
    rw [List.map_cons, List.sum_cons] at hdata hbuf ⊢
    have hfirst := hact part List.mem_cons_self s s₁ hpart
    have hlen : ((data.drop part.pos).take part.len).length = part.len := by
      rw [List.length_take, List.length_drop]
      omega
    have hbuf₁ : s₁.buffer.length = s.buffer.length := by
      rw [hfirst, length_memcpyAt (by omega)]
    have hrest := ih (fun q hq => hact q (List.mem_cons_of_mem _ hq)) hcont (by omega) (by omega)
      hparts
    have hnext : bufferPos + (part.pos + part.len) =
        bufferPos + part.pos + ((data.drop part.pos).take part.len).length := by omega
    rw [hrest, hfirst, hnext, memcpyAt_memcpyAt (by omega), ← List.drop_drop, ← List.take_add]

/-- The file of a part of a piece, with what the part is in the file and in the piece. -/
theorem mem_piecePartsAll (hmulti : t.isMultiFile) {part : FileLayout.Part TorrentFile}
    (hpart : part ∈ t.piecePartsAll index) :
    ∃ j, t.outputs[j]? = some part.file ∧ part.off + part.len ≤ part.file.size ∧
      (((t.outputSlice payload j part.file).drop part.off).take part.len) =
        ((t.pieceData payload index).drop part.pos).take part.len := by
  obtain ⟨j, f, hj, hl, hu, rfl⟩ := mem_parts_iff_getElem?.1 hpart
  have houtputs : t.outputs = t.files := if_pos hmulti
  refine ⟨j, by rw [houtputs]; exact hj, ?_, ?_⟩
  · dsimp only [partOf]
    omega
  · rw [Torrent.outputSlice, Torrent.pieceData, houtputs]
    rw [zero_add] at hl hu ⊢
    exact (take_drop_partOf hl hu).symm

/-- The file of an empty part is empty and lies inside the piece. -/
theorem noEmptyInside_iff (hg : t.Geometry) (hmulti : t.isMultiFile) (h : index < t.numPieces) :
    t.NoEmptyInside index ↔ ∀ part ∈ t.piecePartsAll index, 0 < part.len := by
  have hpos := hg.pieceSize_pos h
  constructor
  · intro hno part hpart
    obtain ⟨j, f, hj, hl, hu, rfl⟩ := mem_parts_iff_getElem?.1 hpart
    by_contra hlen
    dsimp only [partOf] at hlen
    exact hno hmulti j f hj (by omega) ⟨by omega, by omega⟩
  · intro hparts _ j f hj hsize hin
    have hpart := hparts _ (mem_parts_iff_getElem?.2 ⟨j, f, hj, by omega, by omega, rfl⟩)
    dsimp only [partOf] at hpart
    omega

/-- What a part that is fetched puts in the buffer. -/
theorem buffer_of_fetchPart (hg : t.Geometry) (hpay : payload.length = t.totalSize.toNat)
    (hserves : net.Serves t payload seed) (hmulti : t.isMultiFile) {part : FileLayout.Part TorrentFile}
    (hpart : part ∈ t.piecePartsAll index)
    (h : actOn (fetchPart net t seed bufferPos) part s = .ok () s') :
    0 < part.len ∧ s'.buffer = memcpyAt s.buffer (bufferPos + part.pos)
      (((t.pieceData payload index).drop part.pos).take part.len) := by
  obtain ⟨j, hj, hle, hdata⟩ := @mem_piecePartsAll t payload index hmulti part hpart
  rw [actOn, fetchPart] at h
  obtain ⟨url, s₁, horFail, h⟩ := bind_eq_ok.1 h
  obtain ⟨hurl, rfl⟩ := orFail_eq_ok.1 horFail
  rw [← hdata]
  exact buffer_of_httpFetchRange hg hpay hserves hj ((if_pos hmulti).trans hurl) hle h

theorem exists_fetchPart (hg : t.Geometry) (hpay : payload.length = t.totalSize.toNat)
    (hserves : net.Serves t payload seed) (hseed : t.SeedWellFormed seed) (hmulti : t.isMultiFile)
    {part : FileLayout.Part TorrentFile} (hpart : part ∈ t.piecePartsAll index) (hpos : 0 < part.len) :
    ∃ s', actOn (fetchPart net t seed bufferPos) part s = .ok () s' := by
  obtain ⟨j, hj, hle, -⟩ := @mem_piecePartsAll t payload index hmulti part hpart
  obtain ⟨url, host, port, path, hurl, hparse, hrequest⟩ := hseed part.file (List.mem_of_getElem? hj)
  have hurl' : multiFileUrl t seed part.file = some url := (if_pos hmulti).symm.trans hurl
  rw [actOn, fetchPart, hurl', orFail, pure_bind]
  exact ⟨_, httpFetchRange_of_serves hg hpay hserves hj hurl hparse (hrequest _ _ hle) hpos hle⟩

/-- The fetch of a piece is the fetch of its parts. -/
theorem fetchMultiFilePiece_eq (hg : t.Geometry) (hmulti : t.isMultiFile) (h : index < t.numPieces) :
    fetchMultiFilePiece net t seed index bufferPos (t.pieceSize index) =
      (t.piecePartsAll index).forM (actOn (fetchPart net t seed bufferPos)) := by
  rw [fetchMultiFilePiece,
    multiFilePiece_eq hg hmulti (fun x hl hu => by rw [toUInt64_of_mem hl hu]) h]
  simp only [bind_assoc, pure_bind, if_true]
  exact bind_pure _

/-- A piece that is fetched is in its place, and has no empty file inside. -/
theorem buffer_of_fetchMultiFilePiece (hg : t.Geometry) (hpay : payload.length = t.totalSize.toNat)
    (hserves : net.Serves t payload seed) (hmulti : t.isMultiFile) (h : index < t.numPieces)
    (hbuf : bufferPos + t.pieceSize index ≤ s.buffer.length)
    (hfetch : fetchMultiFilePiece net t seed index bufferPos (t.pieceSize index) s = .ok () s') :
    t.NoEmptyInside index ∧
      s'.buffer = memcpyAt s.buffer bufferPos (t.pieceData payload index) := by
  rw [fetchMultiFilePiece_eq hg hmulti h] at hfetch
  have hstart := hg.lt_numPieces_iff.1 h
  have hend := Torrent.pieceStart_add_pieceSize_le hstart.le
  have hlen := length_pieceData hg hpay h
  have hsum : ((t.piecePartsAll index).map FileLayout.Part.len).sum = t.pieceSize index := by
    rw [Torrent.piecePartsAll, sum_len_parts, hg.total_files hmulti]
    omega
  have hcont : Contiguous 0 (t.piecePartsAll index) := by
    have hparts := contiguous_parts TorrentFile.size t.files 0
      (Nat.le_add_right (t.pieceStart index) (t.pieceSize index))
    rwa [Nat.min_zero, Nat.zero_sub] at hparts
  refine ⟨(noEmptyInside_iff hg hmulti h).2 fun part hpart => ?_, ?_⟩
  · obtain ⟨s₁, s₂, hact⟩ := exists_of_forM_eq_ok hfetch hpart
    exact (buffer_of_fetchPart hg hpay hserves hmulti hpart hact).1
  · have hcopy := buffer_of_forM_parts bufferPos (t.pieceData payload index)
      (fun part hpart s₁ s₂ hact => (buffer_of_fetchPart hg hpay hserves hmulti hpart hact).2)
      hcont (by omega) (by omega) hfetch
    rwa [hsum, add_zero, List.drop_zero, List.take_of_length_le hlen.le] at hcopy

/-- A piece with no empty file inside can be fetched from a well-formed seed. -/
theorem exists_fetchMultiFilePiece (bufferPos : ℕ) (s : Fetch) (hg : t.Geometry)
    (hpay : payload.length = t.totalSize.toNat)
    (hserves : net.Serves t payload seed) (hseed : t.SeedWellFormed seed) (hmulti : t.isMultiFile)
    (h : index < t.numPieces) (hno : t.NoEmptyInside index) :
    ∃ s', fetchMultiFilePiece net t seed index bufferPos (t.pieceSize index) s = .ok () s' := by
  rw [fetchMultiFilePiece_eq hg hmulti h]
  exact exists_forM_eq_ok (fun part hpart s => exists_fetchPart hg hpay hserves hseed hmulti hpart
    ((noEmptyInside_iff hg hmulti h).1 hno part hpart)) s

theorem keepsLength_fetchMultiFilePiece {n : ℕ} (hg : t.Geometry) (hmulti : t.isMultiFile)
    (h : index < t.numPieces) (hn : bufferPos + t.pieceSize index ≤ n) :
    Respects (KeepsLength n) (fetchMultiFilePiece net t seed index bufferPos (t.pieceSize index)) := by
  rw [fetchMultiFilePiece_eq hg hmulti h]
  refine respects_forM fun part hpart => ?_
  obtain ⟨j, f, hj, hl, hu, rfl⟩ := mem_parts_iff_getElem?.1 hpart
  rw [actOn]
  refine (keepsLength_orFail n _).bind fun url => keepsLength_httpFetchRange _ _ ?_
  dsimp only [partOf]
  omega

end PS5Torrent
