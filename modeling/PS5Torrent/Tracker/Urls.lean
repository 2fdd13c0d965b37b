import PS5Torrent.Tracker

/-!
# The hosts and ports of URLs

Three functions read the same syntax: a host, and a port after a colon, up to
the next slash. What they connect to is the host and the port of the URL
(`ConnectsAsNamed`) under conditions that differ: `tracker_announce` checks
neither the host nor the port, the port of a web seed is accumulated in an
`int` that wraps, and the URL of a UDP tracker may have spaces and a sign
before the port, and a slash in its host (`readers_connect_iff`).
-/

namespace PS5Torrent

open Decimal

/-- The part of a URL between its scheme and the next slash. -/
def HasAuthority (scheme url authority : Bytes) : Prop :=
  ∃ rest, url = scheme ++ authority ++ rest ∧ chr '/' ∉ authority ∧
    ∀ c ∈ rest.head?, c = chr '/'

/-- A nonempty string of digits. -/
def IsDigits (ds : Bytes) : Prop := ds ≠ [] ∧ ∀ b ∈ ds, isDigit b

/-- The host and the port of an authority; without a port, it is the default one. -/
structure IsHostPort (authority host : Bytes) (default : Option ℕ) (port : ℕ) : Prop where
  host_ne_nil : host ≠ []
  length_host : host.length ≤ 255
  host_colon : chr ':' ∉ host
  port : authority = host ∧ default = some port ∨
    ∃ ds, authority = host ++ chr ':' :: ds ∧ IsDigits ds ∧ value ds = port ∧ 1 ≤ port ∧
      port ≤ 65535

/-- The URL is rejected, or connected to at its host and port. -/
def ConnectsAsNamed (scheme : Bytes) (default : Option ℕ) (url : Bytes)
    (connection : Option (Bytes × ℕ)) : Prop :=
  ∀ host port, connection = some (host, port) →
    ∃ authority, HasAuthority scheme url authority ∧ IsHostPort authority host default port

variable {resolve : Bytes → Option ℕ} {params : TrackerParams}
  {url authority host path text ds : Bytes} {default : Option ℕ} {port : ℕ}

/-! ## Splitting -/

theorem dropWhile_ne_append {b : UInt8} {x : Bytes} (hx : b ∉ x) (y : Bytes) :
    (x ++ b :: y).dropWhile (· ≠ b) = b :: y := by
  rw [List.dropWhile_append_of_pos fun a ha => decide_eq_true (ne_of_mem_of_not_mem ha hx),
    List.dropWhile_cons_of_neg (by simp)]

/-- A string with a character is split at its first one. -/
theorem exists_split {b : UInt8} {s : Bytes} (h : b ∈ s) : ∃ x y, s = x ++ b :: y ∧ b ∉ x := by
  obtain ⟨x, y, rfl, hx⟩ := List.eq_append_cons_of_mem h
  exact ⟨x, y, rfl, hx⟩

/-- There is one first such character. -/
theorem split_unique {b : UInt8} {x x' y y' : Bytes} (hx : b ∉ x) (hx' : b ∉ x')
    (h : x ++ b :: y = x' ++ b :: y') : x = x' ∧ y = y' := by
  have htake := congrArg (List.takeWhile (· ≠ b)) h
  rw [takeWhile_ne_append hx, takeWhile_ne_append hx'] at htake
  subst htake
  exact ⟨rfl, (List.cons.inj (List.append_cancel_left h)).2⟩

/-- A URL has one authority before a slash. -/
theorem hasAuthority_unique {scheme : Bytes} (hauthority : chr '/' ∉ authority)
    {authority' : Bytes}
    (h : HasAuthority scheme (scheme ++ authority ++ chr '/' :: path) authority') :
    authority' = authority := by
  obtain ⟨rest, heq, hslash, hrest⟩ := h
  rw [List.append_assoc, List.append_assoc] at heq
  have hcancel := List.append_cancel_left heq
  cases rest with
  | nil =>
    rw [List.append_nil] at hcancel
    exact absurd (hcancel ▸ List.mem_append_right _ List.mem_cons_self) hslash
  | cons c rest =>
    obtain rfl := hrest c rfl
    exact (split_unique hauthority hslash hcancel).1.symm

/-- An authority without a colon has the default port. -/
theorem isHostPort_iff_of_not_mem (hcolon : chr ':' ∉ authority) :
    IsHostPort authority host default port ↔
      authority = host ∧ host ≠ [] ∧ host.length ≤ 255 ∧ default = some port := by
  constructor
  · rintro ⟨hne, hlength, -, ⟨rfl, hport⟩ | ⟨ds, rfl, -⟩⟩
    · exact ⟨rfl, hne, hlength, hport⟩
    · exact absurd (List.mem_append_right _ List.mem_cons_self) hcolon
  · rintro ⟨rfl, hne, hlength, hport⟩
    exact ⟨hne, hlength, hcolon, .inl ⟨rfl, hport⟩⟩

/-- The port of an authority is the numeral after the colon. -/
theorem isHostPort_iff_of_colon (hcolon : chr ':' ∉ host) :
    IsHostPort (host ++ chr ':' :: text) host default port ↔
      host ≠ [] ∧ host.length ≤ 255 ∧ IsDigits text ∧ value text = port ∧ 1 ≤ port ∧
        port ≤ 65535 := by
  constructor
  · rintro ⟨hne, hlength, -, ⟨heq, -⟩ | ⟨ds, heq, hport⟩⟩
    · have hlength' := congrArg List.length heq
      simp at hlength'
    · obtain ⟨-, rfl⟩ := split_unique hcolon hcolon heq
      exact ⟨hne, hlength, hport⟩
  · rintro ⟨hne, hlength, hport⟩
    exact ⟨hne, hlength, hcolon, .inr ⟨text, rfl, hport⟩⟩

/-- A URL with a scheme and a slash after its authority is split at it. -/
theorem exists_authority {scheme : Bytes} (hscheme : scheme.isPrefixOf url = true)
    (hpath : (url.drop scheme.length).dropWhile (· ≠ chr '/') ≠ []) :
    ∃ authority path, url = scheme ++ authority ++ chr '/' :: path ∧ chr '/' ∉ authority := by
  obtain ⟨start, rfl⟩ := List.isPrefixOf_iff_prefix.1 hscheme
  rw [List.drop_left] at hpath
  have hslash : chr '/' ∈ start := by
    by_contra hslash
    refine hpath (List.dropWhile_eq_nil_iff.2 fun c hc => ?_)
    exact decide_eq_true (ne_of_mem_of_not_mem hc hslash)
  obtain ⟨authority, path, rfl, hauthority⟩ := exists_split hslash
  exact ⟨authority, path, (List.append_assoc ..).symm, hauthority⟩

/-- The parts of a URL, as its readers split it. -/
theorem drop_scheme {scheme : Bytes} (hauthority : chr '/' ∉ authority) :
    scheme.isPrefixOf (scheme ++ authority ++ chr '/' :: path) = true ∧
      ((scheme ++ authority ++ chr '/' :: path).drop scheme.length).takeWhile (· ≠ chr '/') =
        authority ∧
      ((scheme ++ authority ++ chr '/' :: path).drop scheme.length).dropWhile (· ≠ chr '/') =
        chr '/' :: path := by
  rw [List.append_assoc, List.drop_left]
  exact ⟨List.isPrefixOf_iff_prefix.2 (List.prefix_append ..), takeWhile_ne_append hauthority _,
    dropWhile_ne_append hauthority _⟩

theorem takeWhile_ne_of_not_mem {b : UInt8} {x : Bytes} (hx : b ∉ x) :
    x.takeWhile (· ≠ b) = x :=
  List.takeWhile_eq_self_iff.2 fun _ ha => decide_eq_true (ne_of_mem_of_not_mem ha hx)

theorem chr_ne_of_not_mem_append {x y : Bytes} {b : UInt8} (hx : b ∉ x) (hy : b ∉ y)
    {c : UInt8} (hc : b ≠ c) : b ∉ x ++ c :: y := by
  simp [hx, hy, hc]

/-! ## Ports -/

/-- One more digit of a port. -/
theorem toInt32_port {d : UInt8} (hd : isDigit d) (n : ℕ) :
    toInt32 (toInt32 n * 10 + (d.toNat - (chr '0').toNat)) =
      toInt32 ((n * 10 + digitVal d : ℕ) : ℤ) := by
  have h48 : (chr '0').toNat = 48 := rfl
  have hle := (isDigit_iff.1 hd).1
  have hval : (d.toNat : ℤ) - (chr '0').toNat = digitVal d := by
    rw [digitVal, h48]
    omega
  rw [hval, toInt32, toInt32, toInt32, ← Int.bmod_add_bmod, Int.bmod_mul_bmod, Int.bmod_add_bmod]
  congr 1

/-- A numeral in front of the rest of a number. -/
theorem scanPort_append (hds : ∀ b ∈ ds, isDigit b) : ∀ n : ℕ,
    scanPort ds (toInt32 n) = toInt32 (ds.foldl (fun n b => n * 10 + digitVal b) n : ℕ) := by
  induction ds with
  | nil => exact fun _ => rfl
  | cons d ds ih =>
    intro n
    have hd : isDigit d := hds d List.mem_cons_self
    rw [scanPort, if_pos hd, toInt32_port hd, ih fun b hb => hds b (List.mem_cons_of_mem _ hb)]
    rfl

theorem toInt32_zero : toInt32 0 = 0 := Int.zero_bmod

theorem scanPort_eq (hds : ∀ b ∈ ds, isDigit b) : scanPort ds 0 = toInt32 (value ds) := by
  have h := scanPort_append hds 0
  rwa [Nat.cast_zero, toInt32_zero] at h

/-- The rest of a port is made of digits only. -/
theorem parsePort_append {n : ℕ} {p : ℤ} :
    parsePort ds (toInt32 n) = some p ↔
      (∀ b ∈ ds, isDigit b) ∧
        p = toInt32 (ds.foldl (fun n b => n * 10 + digitVal b) n : ℕ) := by
  induction ds generalizing n with
  | nil =>
    rw [parsePort, Option.some_inj, eq_comm]
    exact (and_iff_right fun b hb => absurd hb List.not_mem_nil).symm
  | cons d ds ih =>
    have hd : (d < chr '0' ∨ d > chr '9') ↔ ¬isDigit d := by
      have h48 : (chr '0').toNat = 48 := rfl
      have h57 : (chr '9').toNat = 57 := rfl
      rw [isDigit_iff, gt_iff_lt, UInt8.lt_iff_toNat_lt, UInt8.lt_iff_toNat_lt, h48, h57]
      omega
    by_cases hdigit : isDigit d
    · rw [parsePort, if_neg (mt hd.1 (not_not.2 hdigit)), toInt32_port hdigit, ih,
        List.forall_mem_cons, and_iff_right hdigit]
      rfl
    · rw [parsePort, if_pos (hd.2 hdigit)]
      constructor
      · exact fun h => absurd h (by simp)
      · exact fun h => absurd (h.1 d List.mem_cons_self) hdigit

theorem parsePort_eq_some {p : ℤ} :
    parsePort ds 0 = some p ↔ (∀ b ∈ ds, isDigit b) ∧ p = toInt32 (value ds) := by
  have h := @parsePort_append ds 0 p
  rwa [Nat.cast_zero, toInt32_zero] at h

/-! ## HTTP trackers -/

/-- What `tracker_announce` does not check: that the host is not empty, and that what comes after
    the colon is the numeral of a port. -/
def TrackerUrlFits (resolve : Bytes → Option ℕ) (params : TrackerParams) (url : Bytes) : Prop :=
  ∀ host path, chr '/' ∉ host → chr ':' ∉ host → host.length ≤ 255 → (resolve host).isSome →
    (announceRequest params (chr '/' :: path) host).length < 4096 →
    (url = lit "http://" ++ host ++ chr '/' :: path → host ≠ []) ∧
    ∀ text, chr '/' ∉ text → url = lit "http://" ++ (host ++ chr ':' :: text) ++ chr '/' :: path →
      host ≠ [] ∧ IsDigits text ∧ 1 ≤ value text ∧ value text ≤ 65535

/-- What `tracker_announce` connects to for the authority of a URL. -/
theorem trackerConnection_eq (hauthority : chr '/' ∉ authority) :
    trackerConnection resolve params (lit "http://" ++ authority ++ chr '/' :: path) =
      let host := authority.takeWhile (· ≠ chr ':')
      let port :=
        if chr ':' ∈ authority then scanPort (authority.dropWhile (· ≠ chr ':')).tail 0 else 80
      if host.length ≥ 256 ∨ (announceRequest params (chr '/' :: path) host).length ≥ 4096 then none
      else (resolve host).map fun _ => (host, (port % 2 ^ 16).toNat) := by
  obtain ⟨hscheme, htake, hdrop⟩ := @drop_scheme authority path (lit "http://") hauthority
  have h7 : (lit "http://").length = 7 := rfl
  rw [h7] at htake hdrop
  simp only [trackerConnection, hscheme, htake, hdrop, Bool.not_true, Bool.false_eq_true, if_false,
    if_neg (List.cons_ne_nil _ _), ite_or]

/-- It connects to a host without a port at port 80. -/
theorem trackerConnection_of_not_mem (hslash : chr '/' ∉ host) (hcolon : chr ':' ∉ host)
    (hlength : host.length ≤ 255) (hresolve : (resolve host).isSome)
    (hrequest : (announceRequest params (chr '/' :: path) host).length < 4096) :
    trackerConnection resolve params (lit "http://" ++ host ++ chr '/' :: path) =
      some (host, 80) := by
  obtain ⟨addr, haddr⟩ := Option.isSome_iff_exists.1 hresolve
  simp only [trackerConnection_eq hslash, takeWhile_ne_of_not_mem hcolon, if_neg hcolon]
  rw [if_neg (by omega), haddr]
  rfl

/-- What comes after the colon is read as a number. -/
theorem trackerConnection_of_colon (hslash : chr '/' ∉ host) (hcolon : chr ':' ∉ host)
    (htext : chr '/' ∉ text) (hlength : host.length ≤ 255) (hresolve : (resolve host).isSome)
    (hrequest : (announceRequest params (chr '/' :: path) host).length < 4096) :
    trackerConnection resolve params
        (lit "http://" ++ (host ++ chr ':' :: text) ++ chr '/' :: path) =
      some (host, (scanPort text 0 % 2 ^ 16).toNat) := by
  obtain ⟨addr, haddr⟩ := Option.isSome_iff_exists.1 hresolve
  have hauthority := @chr_ne_of_not_mem_append host text _ hslash htext (chr ':') (by decide)
  have hmem : chr ':' ∈ host ++ chr ':' :: text := List.mem_append_right _ List.mem_cons_self
  simp only [trackerConnection_eq hauthority, takeWhile_ne_append hcolon,
    dropWhile_ne_append hcolon, List.tail_cons, if_pos hmem]
  rw [if_neg (by omega), haddr]
  rfl

/-- Any other URL is rejected. -/
theorem exists_of_trackerConnection (h : trackerConnection resolve params url = some (host, port)) :
    ∃ path, chr '/' ∉ host ∧ chr ':' ∉ host ∧ host.length ≤ 255 ∧ (resolve host).isSome ∧
      (announceRequest params (chr '/' :: path) host).length < 4096 ∧
      (url = lit "http://" ++ host ++ chr '/' :: path ∨
        ∃ text, chr '/' ∉ text ∧
          url = lit "http://" ++ (host ++ chr ':' :: text) ++ chr '/' :: path) := by
  have hscheme : (lit "http://").isPrefixOf url = true := by
    by_contra hneg
    have hscheme := Bool.eq_false_of_not_eq_true hneg
    simp only [trackerConnection, hscheme, Bool.not_false, if_true] at h
    exact absurd h (by simp)
  have hpath : (url.drop (lit "http://").length).dropWhile (· ≠ chr '/') ≠ [] := by
    intro hpath
    have h7 : (lit "http://").length = 7 := rfl
    rw [h7] at hpath
    simp only [trackerConnection, hscheme, hpath, if_true, Bool.not_true, Bool.false_eq_true,
      if_false] at h
    exact absurd h (by simp)
  obtain ⟨authority, path, rfl, hslash⟩ := exists_authority hscheme hpath
  simp only [trackerConnection_eq hslash] at h
  split at h
  · exact absurd h (by simp)
  rename_i hfits
  obtain ⟨addr, haddr, hhost⟩ := Option.map_eq_some_iff.1 h
  obtain ⟨rfl, -⟩ := Prod.mk.inj hhost
  push Not at hfits
  refine ⟨path, ?_⟩
  by_cases hcolon : chr ':' ∈ authority
  · obtain ⟨host, text, rfl, hnot⟩ := exists_split hcolon
    rw [takeWhile_ne_append hnot] at hfits haddr ⊢
    have hslashes := List.mem_append.not.1 hslash
    push Not at hslashes
    refine ⟨hslashes.1, hnot, Nat.le_of_lt_succ hfits.1, Option.isSome_iff_exists.2 ⟨addr, haddr⟩,
      hfits.2, .inr ⟨text, fun hmem => hslashes.2 (List.mem_cons_of_mem _ hmem), rfl⟩⟩
  · rw [takeWhile_ne_of_not_mem hcolon] at hfits haddr ⊢
    exact ⟨hslash, hcolon, Nat.le_of_lt_succ hfits.1, Option.isSome_iff_exists.2 ⟨addr, haddr⟩,
      hfits.2, .inl rfl⟩

/-- The announce URLs that are connected to as they should be. -/
theorem connectsAsNamed_trackerConnection_iff :
    ConnectsAsNamed (lit "http://") (some 80) url (trackerConnection resolve params url) ↔
      TrackerUrlFits resolve params url := by
  constructor
  · intro h host path hslash hcolon hlength hresolve hrequest
    constructor
    · rintro rfl
      obtain ⟨authority, hauthority, hport⟩ :=
        h _ _ (trackerConnection_of_not_mem hslash hcolon hlength hresolve hrequest)
      exact hport.host_ne_nil
    · rintro text htext rfl
      obtain ⟨authority, hauthority, hport⟩ :=
        h _ _ (trackerConnection_of_colon hslash hcolon htext hlength hresolve hrequest)
      have hauthority' := chr_ne_of_not_mem_append hslash htext (c := chr ':') (by decide)
      obtain rfl := hasAuthority_unique hauthority' hauthority
      obtain ⟨hne, -, hdigits, hvalue, hpos, hle⟩ := (isHostPort_iff_of_colon hcolon).1 hport
      rw [← hvalue] at hpos hle
      exact ⟨hne, hdigits, hpos, hle⟩
  · intro hfits host port hconnection
    obtain ⟨path, hslash, hcolon, hlength, hresolve, hrequest, rfl | ⟨text, htext, rfl⟩⟩ :=
      exists_of_trackerConnection hconnection
    · rw [trackerConnection_of_not_mem hslash hcolon hlength hresolve hrequest] at hconnection
      obtain ⟨-, rfl⟩ := Prod.mk.inj (Option.some.inj hconnection)
      refine ⟨host, ⟨_, rfl, hslash, fun c hc => (Option.some.inj hc).symm⟩,
        (isHostPort_iff_of_not_mem hcolon).2 ⟨rfl, ?_, hlength, rfl⟩⟩
      exact (hfits host path hslash hcolon hlength hresolve hrequest).1 rfl
    · rw [trackerConnection_of_colon hslash hcolon htext hlength hresolve hrequest] at hconnection
      obtain ⟨-, rfl⟩ := Prod.mk.inj (Option.some.inj hconnection)
      obtain ⟨hne, hdigits, hpos, hle⟩ :=
        (hfits host path hslash hcolon hlength hresolve hrequest).2 text htext rfl
      have hport : (scanPort text 0 % 2 ^ 16).toNat = value text := by
        rw [scanPort_eq hdigits.2, toInt32_of_mem (by omega) (by omega)]
        omega
      rw [hport]
      refine ⟨_, ⟨_, rfl, chr_ne_of_not_mem_append hslash htext (by decide),
        fun c hc => (Option.some.inj hc).symm⟩, (isHostPort_iff_of_colon hcolon).2 ?_⟩
      exact ⟨hne, hlength, hdigits, rfl, hpos, hle⟩

/-! ## Web seeds -/

/-- What `parse_http_url` does not notice: that the numeral of a port is too large for an `int`,
    and wraps to the number of a port. -/
def WebSeedUrlFits (resolve : Bytes → Option ℕ) (url : Bytes) : Prop :=
  ∀ host text path, chr '/' ∉ host → chr ':' ∉ host → host ≠ [] → host.length ≤ 255 →
    (resolve host).isSome → IsDigits text →
    url = lit "http://" ++ (host ++ chr ':' :: text) ++ chr '/' :: path →
    1 ≤ toInt32 (value text) → toInt32 (value text) ≤ 65535 → value text ≤ 65535

theorem parseHttpUrl_eq (hauthority : chr '/' ∉ authority) {hostSize : ℕ} :
    parseHttpUrl (lit "http://" ++ authority ++ chr '/' :: path) hostSize =
      let host := authority.takeWhile (· ≠ chr ':')
      if host.length = 0 ∨ host.length ≥ hostSize then none
      else if chr ':' ∉ authority then some (host, 80, chr '/' :: path)
      else
        (parsePort (authority.dropWhile (· ≠ chr ':')).tail 0).bind fun value =>
          if value ≤ 0 ∨ value > 65535 then none else some (host, value, chr '/' :: path) := by
  obtain ⟨hscheme, htake, hdrop⟩ := @drop_scheme authority path (lit "http://") hauthority
  have h7 : (lit "http://").length = 7 := rfl
  rw [h7] at htake hdrop
  simp only [parseHttpUrl, hscheme, htake, hdrop, Bool.not_true, Bool.false_eq_true, if_false,
    if_neg (List.cons_ne_nil _ _)]
  cases parsePort (authority.dropWhile (· ≠ chr ':')).tail 0 <;> rfl

/-- A web seed without a port is connected to at port 80. -/
theorem webSeedConnection_of_not_mem (hslash : chr '/' ∉ host) (hcolon : chr ':' ∉ host)
    (hne : host ≠ []) (hlength : host.length ≤ 255) (hresolve : (resolve host).isSome) :
    webSeedConnection resolve (lit "http://" ++ host ++ chr '/' :: path) = some (host, 80) := by
  obtain ⟨addr, haddr⟩ := Option.isSome_iff_exists.1 hresolve
  have hpos := List.length_pos_of_ne_nil hne
  simp only [webSeedConnection, parseHttpUrl_eq hslash, takeWhile_ne_of_not_mem hcolon]
  rw [if_neg (by omega), if_pos hcolon, Option.bind_some, haddr]
  rfl

/-- A port in range is connected to. -/
theorem webSeedConnection_of_parsePort (hslash : chr '/' ∉ host) (hcolon : chr ':' ∉ host)
    (htext : chr '/' ∉ text) (hne : host ≠ []) (hlength : host.length ≤ 255)
    (hresolve : (resolve host).isSome) {p : ℤ} (hport : parsePort text 0 = some p) (hpos : 1 ≤ p)
    (hle : p ≤ 65535) :
    webSeedConnection resolve (lit "http://" ++ (host ++ chr ':' :: text) ++ chr '/' :: path) =
      some (host, p.toNat) := by
  obtain ⟨addr, haddr⟩ := Option.isSome_iff_exists.1 hresolve
  have hauthority := chr_ne_of_not_mem_append hslash htext (c := chr ':') (by decide)
  have hmem : chr ':' ∈ host ++ chr ':' :: text := List.mem_append_right _ List.mem_cons_self
  have hlen := List.length_pos_of_ne_nil hne
  have hrange : ¬(p ≤ 0 ∨ p > 65535) := by omega
  have hmod : p % 2 ^ 16 = p := Int.emod_eq_of_lt (by omega) (by omega)
  rw [webSeedConnection, parseHttpUrl_eq hauthority]
  dsimp only
  rw [takeWhile_ne_append hcolon, dropWhile_ne_append hcolon, List.tail_cons, hport,
    if_neg (by omega), if_neg (not_not.2 hmem), Option.bind_some, if_neg hrange, Option.bind_some]
  dsimp only
  rw [haddr, Option.map_some, hmod]

/-- A port of digits is its value, as an `int`. -/
theorem webSeedConnection_of_colon (hslash : chr '/' ∉ host) (hcolon : chr ':' ∉ host)
    (htext : chr '/' ∉ text) (hne : host ≠ []) (hlength : host.length ≤ 255)
    (hresolve : (resolve host).isSome) (hdigits : ∀ b ∈ text, isDigit b)
    (hpos : 1 ≤ toInt32 (value text)) (hle : toInt32 (value text) ≤ 65535) :
    webSeedConnection resolve (lit "http://" ++ (host ++ chr ':' :: text) ++ chr '/' :: path) =
      some (host, (toInt32 (value text)).toNat) :=
  webSeedConnection_of_parsePort hslash hcolon htext hne hlength hresolve
    (parsePort_eq_some.2 ⟨hdigits, rfl⟩) hpos hle

/-- Any other web seed is rejected. -/
theorem exists_of_webSeedConnection (h : webSeedConnection resolve url = some (host, port)) :
    ∃ path, chr '/' ∉ host ∧ chr ':' ∉ host ∧ host ≠ [] ∧ host.length ≤ 255 ∧
      (resolve host).isSome ∧
      (url = lit "http://" ++ host ++ chr '/' :: path ∨
        ∃ text, IsDigits text ∧ 1 ≤ toInt32 (value text) ∧ toInt32 (value text) ≤ 65535 ∧
          url = lit "http://" ++ (host ++ chr ':' :: text) ++ chr '/' :: path) := by
  obtain ⟨target, htarget, h⟩ := Option.bind_eq_some_iff.1 h
  obtain ⟨addr, haddr, heq⟩ := Option.map_eq_some_iff.1 h
  obtain ⟨rfl, -⟩ := Prod.mk.inj heq
  have hscheme : (lit "http://").isPrefixOf url = true := by
    by_contra hneg
    have hscheme := Bool.eq_false_of_not_eq_true hneg
    simp only [parseHttpUrl, hscheme, Bool.not_false, if_true] at htarget
    exact absurd htarget (by simp)
  have hpath : (url.drop (lit "http://").length).dropWhile (· ≠ chr '/') ≠ [] := by
    intro hpath
    have h7 : (lit "http://").length = 7 := rfl
    rw [h7] at hpath
    simp only [parseHttpUrl, hscheme, hpath, if_true, Bool.not_true, Bool.false_eq_true,
      if_false] at htarget
    exact absurd htarget (by simp)
  obtain ⟨authority, path, rfl, hslash⟩ := exists_authority hscheme hpath
  rw [parseHttpUrl_eq hslash] at htarget
  dsimp only at htarget
  refine ⟨path, ?_⟩
  split at htarget
  · exact absurd htarget (by simp)
  rename_i hfits
  push Not at hfits
  by_cases hcolon : chr ':' ∈ authority
  · obtain ⟨host, text, rfl, hnot⟩ := exists_split hcolon
    rw [if_neg (not_not.2 hcolon), takeWhile_ne_append hnot, dropWhile_ne_append hnot,
      List.tail_cons] at htarget
    rw [takeWhile_ne_append hnot] at hfits
    obtain ⟨port, hport, htarget⟩ := Option.bind_eq_some_iff.1 htarget
    split at htarget
    · exact absurd htarget (by simp)
    rename_i hrange
    obtain rfl := Option.some.inj htarget
    obtain ⟨hdigits, hvalue⟩ := parsePort_eq_some.1 hport
    rw [hvalue] at hrange
    have hslashes := List.mem_append.not.1 hslash
    push Not at hslashes
    have htext : text ≠ [] := by
      rintro rfl
      rw [value_nil, Nat.cast_zero, toInt32_zero] at hrange
      exact hrange (.inl le_rfl)
    exact ⟨hslashes.1, hnot, fun hnil => hfits.1 (List.length_eq_zero_iff.2 hnil),
      Nat.le_of_lt_succ hfits.2, Option.isSome_iff_exists.2 ⟨addr, haddr⟩,
      .inr ⟨text, ⟨htext, hdigits⟩, by omega, by omega, rfl⟩⟩
  · rw [takeWhile_ne_of_not_mem hcolon] at htarget hfits
    rw [if_pos hcolon] at htarget
    obtain rfl := Option.some.inj htarget
    dsimp only at haddr
    exact ⟨hslash, hcolon, fun hnil => hfits.1 (List.length_eq_zero_iff.2 hnil),
      Nat.le_of_lt_succ hfits.2, Option.isSome_iff_exists.2 ⟨addr, haddr⟩, .inl rfl⟩

theorem not_mem_of_isDigits (hds : ∀ b ∈ ds, isDigit b) : chr '/' ∉ ds :=
  fun hmem => absurd (hds _ hmem) (by decide)

/-- The web seeds that are connected to as they should be. -/
theorem connectsAsNamed_webSeedConnection_iff :
    ConnectsAsNamed (lit "http://") (some 80) url (webSeedConnection resolve url) ↔
      WebSeedUrlFits resolve url := by
  constructor
  · rintro h host text path hslash hcolon hne hlength hresolve hdigits rfl hpos hle
    have htext := not_mem_of_isDigits hdigits.2
    obtain ⟨authority, hauthority, hport⟩ := h _ _
      (webSeedConnection_of_colon hslash hcolon htext hne hlength hresolve hdigits.2 hpos hle)
    have hauthority' := chr_ne_of_not_mem_append hslash htext (c := chr ':') (by decide)
    obtain rfl := hasAuthority_unique hauthority' hauthority
    obtain ⟨-, -, -, hvalue, -, hle'⟩ := (isHostPort_iff_of_colon hcolon).1 hport
    exact hvalue ▸ hle'
  · intro hfits host port hconnection
    obtain ⟨path, hslash, hcolon, hne, hlength, hresolve, rfl | ⟨text, hdigits, hpos, hle, rfl⟩⟩ :=
      exists_of_webSeedConnection hconnection
    · rw [webSeedConnection_of_not_mem hslash hcolon hne hlength hresolve] at hconnection
      obtain ⟨-, rfl⟩ := Prod.mk.inj (Option.some.inj hconnection)
      exact ⟨host, ⟨_, rfl, hslash, fun c hc => (Option.some.inj hc).symm⟩,
        (isHostPort_iff_of_not_mem hcolon).2 ⟨rfl, hne, hlength, rfl⟩⟩
    · have htext := not_mem_of_isDigits hdigits.2
      rw [webSeedConnection_of_colon hslash hcolon htext hne hlength hresolve hdigits.2 hpos hle]
        at hconnection
      obtain ⟨-, rfl⟩ := Prod.mk.inj (Option.some.inj hconnection)
      have hvalue := hfits host text path hslash hcolon hne hlength hresolve hdigits rfl hpos hle
      have hport : toInt32 (value text) = value text := toInt32_of_mem (by omega) (by omega)
      rw [hport] at hpos ⊢
      refine ⟨_, ⟨_, rfl, chr_ne_of_not_mem_append hslash htext (by decide),
        fun c hc => (Option.some.inj hc).symm⟩, (isHostPort_iff_of_colon hcolon).2 ?_⟩
      exact ⟨hne, hlength, hdigits, rfl, by omega, hvalue⟩

/-! ## UDP trackers -/

/-- What `tracker_announce_udp` does not check: that the host ends before the first slash, and that
    the numeral of the port has no space and no sign before it. -/
def UdpUrlFits (resolve : Bytes → Option ℕ) (url : Bytes) : Prop :=
  ∀ host text, chr ':' ∉ host → host ≠ [] → host.length ≤ 255 → (resolve host).isSome →
    url = lit "udp://" ++ host ++ chr ':' :: text → (strtol text).2 ≠ text →
    (∀ c ∈ (strtol text).2.head?, c = chr '/') → 1 ≤ (strtol text).1 → (strtol text).1 ≤ 65535 →
    chr '/' ∉ host ∧ ∀ c ∈ text.head?, isDigit c

/-- A UDP tracker is connected to at the number after the first colon. -/
theorem udpConnection_eq_some_iff :
    udpConnection resolve url = some (host, port) ↔
      ∃ text, chr ':' ∉ host ∧ host ≠ [] ∧ host.length ≤ 255 ∧ (resolve host).isSome ∧
        url = lit "udp://" ++ host ++ chr ':' :: text ∧ (strtol text).2 ≠ text ∧
        (∀ c ∈ (strtol text).2.head?, c = chr '/') ∧ 1 ≤ (strtol text).1 ∧
        (strtol text).1 ≤ 65535 ∧ (strtol text).1.toNat = port := by
  have h6 : (lit "udp://").length = 6 := rfl
  constructor
  · intro h
    have hscheme : (lit "udp://").isPrefixOf url = true := by
      by_contra hneg
      have hscheme := Bool.eq_false_of_not_eq_true hneg
      simp only [udpConnection, hscheme, Bool.not_false, if_true] at h
      exact absurd h (by simp)
    obtain ⟨start, rfl⟩ := List.isPrefixOf_iff_prefix.1 hscheme
    have hdrop : (lit "udp://" ++ start).drop 6 = start := List.drop_left' h6
    simp only [udpConnection, hscheme, hdrop, Bool.not_true, Bool.false_eq_true, if_false] at h
    split at h
    · exact absurd h (by simp)
    rename_i hhost
    push Not at hhost
    obtain ⟨hcolon, hne, hlength⟩ := hhost
    obtain ⟨host, text, rfl, hnot⟩ := exists_split hcolon
    rw [takeWhile_ne_append hnot] at hne hlength h
    rw [dropWhile_ne_append hnot, List.tail_cons] at h
    split at h
    · exact absurd h (by simp)
    rename_i hport
    push Not at hport
    obtain ⟨hread, hend, hpos, hle⟩ := hport
    obtain ⟨addr, haddr, heq⟩ := Option.map_eq_some_iff.1 h
    obtain ⟨rfl, rfl⟩ := Prod.mk.inj heq
    refine ⟨text, hnot, hne, Nat.le_of_lt_succ hlength, Option.isSome_iff_exists.2 ⟨addr, haddr⟩,
      (List.append_assoc ..).symm, hread, fun c hc => ?_, hpos, hle, rfl⟩
    have hsome := hend fun hnil => by rw [hnil] at hc; exact absurd hc (by simp)
    rw [hsome] at hc
    exact (Option.some.inj hc).symm
  · rintro ⟨text, hcolon, hne, hlength, hresolve, rfl, hread, hend, hpos, hle, rfl⟩
    obtain ⟨addr, haddr⟩ := Option.isSome_iff_exists.1 hresolve
    have hscheme : (lit "udp://").isPrefixOf (lit "udp://" ++ host ++ chr ':' :: text) = true := by
      rw [List.append_assoc]
      exact List.isPrefixOf_iff_prefix.2 (List.prefix_append ..)
    have hdrop : (lit "udp://" ++ host ++ chr ':' :: text).drop 6 = host ++ chr ':' :: text := by
      rw [List.append_assoc]
      exact List.drop_left' h6
    have hmem : chr ':' ∈ host ++ chr ':' :: text := List.mem_append_right _ List.mem_cons_self
    have hhost : ¬(chr ':' ∉ host ++ chr ':' :: text ∨ host = [] ∨ host.length ≥ 256) := by
      push Not
      exact ⟨hmem, hne, Nat.lt_succ_of_le hlength⟩
    have hport : ¬((strtol text).2 = text ∨
        ((strtol text).2 ≠ [] ∧ (strtol text).2.head? ≠ some (chr '/')) ∨
        (strtol text).1 < 1 ∨ (strtol text).1 > 65535) := by
      push Not
      refine ⟨hread, fun hnil => ?_, hpos, hle⟩
      obtain ⟨c, rest, hrest⟩ := List.exists_cons_of_ne_nil hnil
      rw [hrest] at hend ⊢
      exact congrArg some (hend c rfl)
    simp only [udpConnection, hscheme, hdrop, Bool.not_true, Bool.false_eq_true, if_false,
      takeWhile_ne_append hcolon, dropWhile_ne_append hcolon, List.tail_cons]
    rw [if_neg hhost, if_neg hport, haddr]
    rfl

/-- The UDP trackers that are connected to as they should be. -/
theorem connectsAsNamed_udpConnection_iff :
    ConnectsAsNamed (lit "udp://") none url (udpConnection resolve url) ↔ UdpUrlFits resolve url := by
  constructor
  · rintro h host text hcolon hne hlength hresolve rfl hread hend hpos hle
    obtain ⟨authority, ⟨rest, heq, hslash, hrest⟩, hport⟩ := h _ _ (udpConnection_eq_some_iff.2
      ⟨text, hcolon, hne, hlength, hresolve, rfl, hread, hend, hpos, hle, rfl⟩)
    obtain ⟨-, hdefault⟩ | ⟨ds, rfl, hdigits, -⟩ := hport.port
    · exact absurd hdefault (by simp)
    · rw [List.append_assoc, List.append_assoc] at heq
      have hcancel := List.append_cancel_left heq
      rw [List.append_assoc] at hcancel
      have htext := (List.cons.inj (List.append_cancel_left hcancel)).2
      refine ⟨fun hmem => hslash (List.mem_append_left _ hmem), fun c hc => ?_⟩
      obtain ⟨d, ds', rfl⟩ := List.exists_cons_of_ne_nil hdigits.1
      rw [htext] at hc
      obtain rfl := Option.some.inj hc
      exact hdigits.2 _ List.mem_cons_self
  · intro hfits host port hconnection
    obtain ⟨text, hcolon, hne, hlength, hresolve, rfl, hread, hend, hpos, hle, rfl⟩ :=
      udpConnection_eq_some_iff.1 hconnection
    obtain ⟨hslash, hhead⟩ :=
      hfits host text hcolon hne hlength hresolve rfl hread hend hpos hle
    obtain ⟨ds, rest, rfl, hds, hrest⟩ : ∃ ds rest, text = ds ++ rest ∧ (∀ b ∈ ds, isDigit b) ∧
        ∀ b ∈ rest.head?, ¬isDigit b := by
      refine ⟨text.takeWhile isDigit, text.dropWhile isDigit, List.takeWhile_append_dropWhile.symm,
        fun b hb => (List.mem_takeWhile_imp hb), fun b hb => ?_⟩
      have := List.head?_dropWhile_not isDigit text
      rw [hb] at this
      simpa using this
    have hnil : ds ≠ [] := by
      rintro rfl
      cases rest with
      | nil => exact hread rfl
      | cons c rest => exact absurd (hhead c rfl) (hrest c rfl)
    rw [strtol_append hnil hds hrest] at hend hpos hle ⊢
    have hvalue : min INT64_MAX (value ds : ℤ) = value ds := by
      have hmax : (65535 : ℤ) < INT64_MAX := by decide
      omega
    rw [hvalue] at hpos hle ⊢
    refine ⟨host ++ chr ':' :: ds, ⟨rest, ?_, ?_, hend⟩, (isHostPort_iff_of_colon hcolon).2
      ⟨hne, hlength, ⟨hnil, hds⟩, rfl, by omega, by omega⟩⟩
    · simp only [List.append_assoc, List.cons_append]
    · exact chr_ne_of_not_mem_append hslash (not_mem_of_isDigits hds) (by decide)

/-! ## The three readers -/

/-- Each reader rejects a URL or connects to its host and port, but for what it does not check. -/
theorem readers_connect_iff (resolve : Bytes → Option ℕ) (params : TrackerParams) (url : Bytes) :
    (ConnectsAsNamed (lit "http://") (some 80) url (trackerConnection resolve params url) ↔
      TrackerUrlFits resolve params url) ∧
    (ConnectsAsNamed (lit "udp://") none url (udpConnection resolve url) ↔ UdpUrlFits resolve url) ∧
    (ConnectsAsNamed (lit "http://") (some 80) url (webSeedConnection resolve url) ↔
      WebSeedUrlFits resolve url) :=
  ⟨connectsAsNamed_trackerConnection_iff, connectsAsNamed_udpConnection_iff,
    connectsAsNamed_webSeedConnection_iff⟩

/-- The port 65616 of a tracker is not rejected: port 80 is connected to. -/
theorem trackerConnection_wraps :
    let params : TrackerParams :=
      ⟨List.replicate 20 0, List.replicate 20 0, 6881, 0, 0, 0, true⟩
    trackerConnection (fun _ => some 0) params (lit "http://t:65616/a") = some (lit "t", 80) ∧
      ¬ConnectsAsNamed (lit "http://") (some 80) (lit "http://t:65616/a")
        (trackerConnection (fun _ => some 0) params (lit "http://t:65616/a")) := by
  intro params
  have hslash : chr '/' ∉ lit "t" := by decide
  have hcolon : chr ':' ∉ lit "t" := by decide
  have htext : chr '/' ∉ lit "65616" := by decide
  have hall : (lit "65616").all isDigit = true := rfl
  have hdigits : ∀ b ∈ lit "65616", isDigit b := List.all_eq_true.1 hall
  have hvalue : value (lit "65616") = 65616 := Nat.eq_of_beq_eq_true rfl
  have hlength : (lit "t").length ≤ 255 := by decide
  have hrequest : (announceRequest params (chr '/' :: lit "a") (lit "t")).length < 4096 := by
    decide +kernel
  have hport : (scanPort (lit "65616") 0 % 2 ^ 16).toNat = 80 := by
    rw [scanPort_eq hdigits, hvalue, toInt32_of_mem (by decide) (by decide)]
    rfl
  constructor
  · have h := @trackerConnection_of_colon (fun _ => some 0) params (lit "t") (lit "a") (lit "65616")
      hslash hcolon htext hlength rfl hrequest
    rwa [hport] at h
  · rw [connectsAsNamed_trackerConnection_iff]
    intro hfits
    have h := (hfits (lit "t") (lit "a") hslash hcolon hlength rfl hrequest).2 _ htext rfl
    exact absurd h.2.2.2 (by decide)

end PS5Torrent
