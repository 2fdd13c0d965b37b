import PS5Torrent.WebSeed

/-!
# Responses to range requests

A response that consists of a complete header with the status 206 and exactly
the requested bytes (`Answers206`) fills its place in the buffer with these
bytes, however it is cut into segments (`httpFetchRange_eq`).
-/

namespace PS5Torrent

open Effect

/-- The response has the status 206 and the given body. -/
def Answers206 (segments : List Bytes) (body : Bytes) : Prop :=
  (∀ segment ∈ segments, segment ≠ []) ∧ ∃ header, segments.flatten = header ++ body ∧
    emptyLine <:+ header ∧ (∀ p, p <+: header → p ≠ header → ¬emptyLine <:+ p) ∧
    header.length < HEADER_SIZE ∧ scanStatus header = some 206

theorem orFail_eq_ok {α : Type} {x : Option α} {a : α} {s s' : Fetch} :
    orFail x s = .ok a s' ↔ x = some a ∧ s = s' := by
  cases x with
  | none => exact iff_of_false throw_ne_ok fun h => nomatch h.1
  | some b =>
    rw [orFail, Option.some.injEq]
    exact pure_eq_ok

/-! ## Receiving -/

/-- While there are segments left, a call returns some of the bytes to come. -/
theorem netRecvSome_eq_some {sock : List Bytes} {len : ℕ} (hsock : ∀ segment ∈ sock, segment ≠ [])
    (hne : sock.flatten ≠ []) (hlen : 0 < len) :
    ∃ chunk sock', netRecvSome sock len = some (chunk, sock') ∧
      sock.flatten = chunk ++ sock'.flatten ∧ 0 < chunk.length ∧ chunk.length ≤ len ∧
      ∀ segment ∈ sock', segment ≠ [] := by
  cases sock with
  | nil => exact absurd rfl hne
  | cons segment segments =>
    have hsegment := hsock segment List.mem_cons_self
    have hpos := List.length_pos_iff.2 hsegment
    have hrest := fun s hs => hsock s (List.mem_cons_of_mem _ hs)
    refine ⟨segment.take len, _, if_neg hsegment, ?_, ?_, List.length_take_le _ _, ?_⟩
    · split
      case isTrue hle => rw [List.take_of_length_le hle, List.flatten_cons]
      case isFalse =>
        rw [List.flatten_cons, List.flatten_cons, ← List.append_assoc, List.take_append_drop]
    · rw [List.length_take]
      omega
    · split
      case isTrue => exact hrest
      case isFalse hlt =>
        rintro s (_ | ⟨_, hs⟩)
        · exact List.ne_nil_of_length_pos (by rw [List.length_drop]; omega)
        · exact hrest s hs

/-- The header is read up to the first empty line. -/
theorem readHeader_eq {header rest body : Bytes} {sock : List Bytes} {n : ℕ}
    (hsock : ∀ segment ∈ sock, segment ≠ []) (hflat : sock.flatten = rest ++ body)
    (hne : rest ≠ []) (hn : rest.length ≤ n) (hend : emptyLine <:+ header ++ rest)
    (hfirst : ∀ p, p <+: header ++ rest → p ≠ header ++ rest → ¬emptyLine <:+ p)
    (hlen : (header ++ rest).length < HEADER_SIZE) :
    ∃ sock', readHeader n sock header = some (header ++ rest, sock') ∧ sock'.flatten = body ∧
      ∀ segment ∈ sock', segment ≠ [] := by
  induction n generalizing header rest sock with
  | zero => exact absurd (List.length_eq_zero_iff.1 (by omega)) hne
  | succ n ih =>
    obtain ⟨c, rest, rfl⟩ := List.exists_cons_of_ne_nil hne
    obtain ⟨chunk, sock', hrecv, hchunk, hpos, hle, hsock'⟩ :=
      netRecvSome_eq_some hsock (by rw [hflat]; exact List.cons_ne_nil _ _) one_pos
    obtain ⟨b, rfl⟩ := List.length_eq_one_iff.1 (le_antisymm hle hpos)
    rw [hflat] at hchunk
    obtain ⟨rfl, hflat'⟩ := List.cons.inj hchunk
    have hsplit : header ++ c :: rest = header ++ [c] ++ rest := by simp
    rw [hsplit] at hend hfirst hlen ⊢
    rw [readHeader, hrecv, Option.bind_eq_bind, Option.bind_some]
    dsimp only
    by_cases hrest : rest = []
    · -- The last byte of the header.
      subst hrest
      rw [List.append_nil] at hend hlen ⊢
      rw [if_pos (List.isSuffixOf_iff_suffix.2 hend), if_neg (not_le.2 hlen)]
      exact ⟨sock', rfl, hflat'.symm, hsock'⟩
    · have hproper : header ++ [c] ≠ header ++ [c] ++ rest := fun h =>
        hrest (List.self_eq_append_right.1 h)
      rw [if_neg fun h =>
        hfirst _ (List.prefix_append _ _) hproper (List.isSuffixOf_iff_suffix.1 h)]
      rw [List.length_cons] at hn
      exact ih hsock' hflat'.symm hrest (by omega) hend hfirst hlen

/-- The body is read however it arrives. -/
theorem readBody_eq {sock : List Bytes} {fuel : ℕ} {body : Bytes}
    (hsock : ∀ segment ∈ sock, segment ≠ []) (hflat : sock.flatten = body)
    (hfuel : body.length ≤ fuel) : readBody fuel body.length sock = body := by
  induction fuel generalizing sock body with
  | zero => exact (List.length_eq_zero_iff.1 (by omega)).symm
  | succ fuel ih =>
    rw [readBody]
    split
    case isTrue hzero => exact (List.length_eq_zero_iff.1 hzero).symm
    case isFalse hpos =>
      obtain ⟨chunk, sock', hrecv, hchunk, hchunkpos, -, hsock'⟩ :=
        netRecvSome_eq_some hsock (by rw [hflat]; exact fun h => hpos (by rw [h]; rfl))
          (Nat.pos_of_ne_zero hpos)
      rw [hrecv]
      dsimp only
      rw [hflat] at hchunk
      subst hchunk
      rw [List.length_append, Nat.add_sub_cancel_left] at *
      rw [ih hsock' rfl (by omega)]

/-- A range request that is answered puts the bytes in their place. -/
theorem httpFetchRange_eq {net : Net} {url host path body : Bytes} {port start : ℤ}
    {addr : ℕ} (outPos : ℕ) {segments : List Bytes} {s : Fetch} (hbody : body ≠ [])
    (hurl : parseHttpUrl url 256 = some (host, port, path)) (haddr : net.resolve host = some addr)
    (hrequest : (rangeRequest path host start body.length).length < 1024)
    (hexchange : net.exchange s.connections addr port (rangeRequest path host start body.length) =
      some segments) (hanswer : Answers206 segments body) :
    httpFetchRange net url start body.length outPos s =
      .ok () ⟨memcpyAt s.buffer outPos body, s.connections + 1⟩ := by
  obtain ⟨hsegments, header, hflat, hend, hfirst, hlen, hstatus⟩ := hanswer
  have hheader : header ≠ [] := by
    rintro rfl
    exact absurd (List.suffix_nil.1 hend) (by decide +kernel)
  obtain ⟨sock, hread, hsockflat, hsock⟩ := @readHeader_eq [] header body segments HEADER_SIZE
    hsegments hflat hheader hlen.le hend hfirst hlen
  have hexchange' : exchange net addr port (rangeRequest path host start body.length) s =
      .ok segments ⟨s.buffer, s.connections + 1⟩ := by
    rw [exchange, hexchange]
  rw [httpFetchRange, if_neg (mt List.length_eq_zero_iff.1 hbody), hurl, orFail, pure_bind]
  dsimp only
  rw [haddr, orFail, pure_bind, if_neg (not_le.2 hrequest), bind_of_ok hexchange', hread, orFail,
    pure_bind]
  dsimp only
  rw [List.nil_append, hstatus, orFail, pure_bind, if_neg (by simp), if_neg (by simp),
    readBody_eq hsock hsockflat le_rfl, if_pos rfl]
  rfl

/-- What a successful range request takes. -/
theorem httpFetchRange_eq_ok {net : Net} {url : Bytes} {start : ℤ} {length outPos : ℕ}
    {s s' : Fetch} (h : httpFetchRange net url start length outPos s = .ok () s') :
    length ≠ 0 ∧ ∃ host port path addr, parseHttpUrl url 256 = some (host, port, path) ∧
      net.resolve host = some addr ∧ (rangeRequest path host start length).length < 1024 := by
  rw [httpFetchRange] at h
  split at h
  · exact absurd h throw_ne_ok
  rename_i hlen
  obtain ⟨⟨host, port, path⟩, s₁, hurl, h⟩ := bind_eq_ok.1 h
  obtain ⟨addr, s₂, haddr, h⟩ := bind_eq_ok.1 h
  dsimp only at h
  split at h
  · exact absurd h throw_ne_ok
  rename_i hrequest
  exact ⟨hlen, host, port, path, addr, (orFail_eq_ok.1 hurl).1, (orFail_eq_ok.1 haddr).1,
    not_le.1 hrequest⟩

end PS5Torrent
