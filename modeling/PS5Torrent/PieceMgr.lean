import PS5Torrent.Torrent
import PS5Torrent.Sha1
import Mathlib.Data.Nat.Bitwise

/-!
# Piece manager

`piece_mgr.c`: the state of each piece, the number of complete ones, and the
bitfield of the pieces we have. `pieces` and `bitfield` are `none` where the
source has `NULL`.
-/

namespace PS5Torrent

open Sha1

inductive PieceState
  | free
  | requested
  | complete
  | failed
deriving DecidableEq

structure Piece where
  state : PieceState
  hash : Bytes

/-! ## Bitfields -/

/-- `bitfield[i / 8] & (1 << (7 - i % 8))` -/
def hasBit (bitfield : Bytes) (i : ℕ) : Bool := (bitfield.getD (i / 8) 0).toNat.testBit (7 - i % 8)

/-- `bitfield[i / 8] |= 1 << (7 - i % 8)`, inside the bitfield. -/
def setBit (bitfield : Bytes) (i : ℕ) : Bytes :=
  bitfield.modify (i / 8) (· ||| 1 <<< UInt8.ofNat (7 - i % 8))

theorem testBit_shiftLeft {k l : ℕ} (hk : k < 8) (hl : l < 8) :
    ((1 : UInt8) <<< UInt8.ofNat k).toNat.testBit l = decide (k = l) := by
  interval_cases k <;> interval_cases l <;> rfl

/-- Setting a bit sets this bit only. -/
theorem hasBit_setBit {bitfield : Bytes} {i j : ℕ} (h : i / 8 < bitfield.length) :
    hasBit (setBit bitfield i) j = (decide (i = j) || hasBit bitfield j) := by
  rw [hasBit, hasBit, setBit, List.getD_eq_getElem?_getD, List.getD_eq_getElem?_getD,
    List.getElem?_modify]
  by_cases hbyte : i / 8 = j / 8
  · rw [hbyte] at h
    simp only [if_pos hbyte, List.getElem?_eq_getElem h, Option.map_eq_map, Option.map_some,
      Option.getD_some]
    rw [UInt8.toNat_or, Nat.testBit_or, testBit_shiftLeft (by omega) (by omega), Bool.or_comm]
    congr 1
    exact decide_eq_decide.2 (by omega)
  · have hne : i ≠ j := fun h => hbyte (by rw [h])
    simp only [if_neg hbyte, decide_eq_false hne, Bool.false_or, Option.map_eq_map, Option.map_id']

@[simp]
theorem length_setBit (bitfield : Bytes) (i : ℕ) : (setBit bitfield i).length = bitfield.length :=
  List.length_modify ..

theorem hasBit_replicate (n i : ℕ) : hasBit (List.replicate n 0) i = false := by
  have hzero : (List.replicate n (0 : UInt8)).getD (i / 8) 0 = 0 := by
    rw [List.getD_eq_getElem?_getD, List.getElem?_replicate]
    split <;> rfl
  rw [hasBit, hzero]
  exact Nat.zero_testBit _

/-! ## The manager -/

structure PieceMgr where
  pieces : Option (List Piece)
  numPieces : ℕ
  numComplete : ℕ
  bitfield : Option Bytes

namespace PieceMgr

/-- A cleared manager. -/
def cleared : PieceMgr := ⟨none, 0, 0, none⟩

/-- The state of a piece, if there is one. -/
def state (pm : PieceMgr) (index : ℕ) : Option PieceState :=
  (pm.pieces.bind (·[index]?)).map Piece.state

/-- The hash of a piece, if there is one. -/
def hash (pm : PieceMgr) (index : ℕ) : Option Bytes :=
  (pm.pieces.bind (·[index]?)).map Piece.hash

/-- `pieces[index].state = state` -/
def setState (pm : PieceMgr) (index : ℕ) (state : PieceState) : PieceMgr :=
  { pm with pieces := pm.pieces.map (·.modify index fun piece => { piece with state }) }

end PieceMgr

/-- `piece_mgr_init`, with whether each of the two allocations succeeds. -/
def pieceMgrInit (piecesOk bitfieldOk : Bool) (t : Torrent) : PieceMgr where
  pieces :=
    if piecesOk && bitfieldOk then
      some ((List.range t.numPieces).map fun i => ⟨.free, t.pieceHash i⟩)
    else none
  numPieces := t.numPieces
  numComplete := 0
  bitfield :=
    if piecesOk && bitfieldOk then some (List.replicate ((t.numPieces + 7) / 8) 0) else none

def pieceMgrIsDone (pm : PieceMgr) : Bool := pm.numComplete ≥ pm.numPieces

/-- Whether a peer has a piece, as far as its bitfield says. -/
def advertises : Option Bytes → ℕ → Bool
  | none, _ => true
  | some bitfield, index => index / 8 ≥ bitfield.length || hasBit bitfield index

/-- The first free piece that the peer has; the index is returned as an `int`. -/
def pieceMgrGetNext (pm : PieceMgr) (bitfield : Option Bytes) : Option ℕ :=
  if pieceMgrIsDone pm then none
  else do
    let index ← (List.range pm.numPieces).find? fun index =>
      pm.state index = some .free && advertises bitfield index
    if toInt32 index < 0 then none else some (toInt32 index).toNat

def pieceMgrRequest (pm : PieceMgr) (index : ℕ) : PieceMgr :=
  if index ≥ pm.numPieces then pm else pm.setState index .requested

/-- `piece_mgr_complete`, with whether the hash matches. -/
def pieceMgrComplete (pm : PieceMgr) (index : ℕ) (data : Bytes) : Bool × PieceMgr :=
  if index ≥ pm.numPieces then (false, pm)
  else if pm.hash index ≠ some (sha1Hash data) then
    (false, pm.setState index .failed)
  else
    (true, { pm.setState index .complete with
      numComplete := pm.numComplete + 1
      bitfield := pm.bitfield.map (setBit · index) })

def pieceMgrDestroy (_ : PieceMgr) : PieceMgr := .cleared

/-! ### Rules -/

namespace PieceMgr

variable {pm : PieceMgr} {index i : ℕ} {s : PieceState}

@[simp]
theorem numPieces_setState : (pm.setState index s).numPieces = pm.numPieces := rfl

@[simp]
theorem numComplete_setState : (pm.setState index s).numComplete = pm.numComplete := rfl

@[simp]
theorem bitfield_setState : (pm.setState index s).bitfield = pm.bitfield := rfl

@[simp]
theorem hash_setState : (pm.setState index s).hash i = pm.hash i := by
  rw [hash, hash, setState]
  cases pm.pieces with
  | none => rfl
  | some pieces =>
    rw [Option.map_some, Option.bind_some, Option.bind_some, List.getElem?_modify]
    cases pieces[i]? with
    | none => rfl
    | some piece => split <;> rfl

theorem state_setState : (pm.setState index s).state i =
    if index = i then (pm.state i).map fun _ => s else pm.state i := by
  rw [state, state, setState]
  cases pm.pieces with
  | none => simp
  | some pieces =>
    rw [Option.map_some, Option.bind_some, Option.bind_some, List.getElem?_modify]
    cases pieces[i]? with
    | none => split <;> rfl
    | some piece => split <;> rfl

theorem state_setState_of_ne (h : index ≠ i) : (pm.setState index s).state i = pm.state i := by
  rw [state_setState, if_neg h]

theorem state_setState_self (h : (pm.state index).isSome) :
    (pm.setState index s).state index = some s := by
  obtain ⟨s', hs'⟩ := Option.isSome_iff_exists.1 h
  rw [state_setState, if_pos rfl, hs', Option.map_some]

theorem setState_comm {j : ℕ} {s' : PieceState} (h : index ≠ j) :
    (pm.setState index s).setState j s' = (pm.setState j s').setState index s := by
  obtain ⟨pieces, numPieces, numComplete, bitfield⟩ := pm
  cases pieces with
  | none => rfl
  | some pieces =>
    simp only [setState, Option.map_some]
    congr 2
    refine List.ext_getElem? fun k => ?_
    simp only [List.getElem?_modify]
    cases pieces[k]? with
    | none => rfl
    | some piece =>
      by_cases hk : index = k
      · subst hk
        simp [h.symm]
      · simp [hk]

/-- Setting the state a piece has changes nothing. -/
theorem setState_self (h : pm.state index = some s) : pm.setState index s = pm := by
  obtain ⟨pieces, numPieces, numComplete, bitfield⟩ := pm
  cases pieces with
  | none => rfl
  | some pieces =>
    obtain ⟨piece, hpiece, rfl⟩ := Option.map_eq_some_iff.1 h
    rw [Option.bind_some] at hpiece
    simp only [setState, Option.map_some]
    congr 2
    refine List.ext_getElem? fun j => ?_
    rw [List.getElem?_modify]
    by_cases hj : index = j
    · subst hj
      rw [hpiece]
      simp
    · simp [hj]

theorem setState_setState {s' : PieceState} :
    (pm.setState index s).setState index s' = pm.setState index s' := by
  rw [setState, setState, setState, Option.map_map]
  simp only [Function.comp_def, List.modify_modify_eq]

end PieceMgr

end PS5Torrent
