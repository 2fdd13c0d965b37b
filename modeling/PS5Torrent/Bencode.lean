import PS5Torrent.Basic
import PS5Torrent.Library.Decimal

/-!
# Bencoding

The parser and the encoder of `bencode.c`. The parser is a recursive descent
over a buffer `data` with a read position; a function returns the position
after what it read, or `none` where the C function returns `NULL`. It is
lenient: it accepts leading zeros, numerals without digits, and integers that
are not closed (which read as `0`), and it accumulates numerals in wrapping
64-bit arithmetic.

The recursion of the C functions is bounded by a fuel, decreasing at every
call; `bcodeParse` provides enough for any buffer (`parseValue_parseFuel`).
-/

namespace PS5Torrent

open Decimal (isDigit digitVal)

/-- A node of a bencoded tree. The key of a dictionary entry, which the
    source keeps in the entry's node, comes with the node. -/
inductive BcodeNode
  | str (strVal : Bytes)
  | int (intVal : ℤ)
  | list (children : List BcodeNode)
  | dict (children : List (Bytes × BcodeNode))

namespace Bencode

/-! ## Parsing -/

/-- Read digits from the position `pos` on, as long as there are any, and
    accumulate them. -/
def scanDigits {α : Type*} (push : α → ℕ → α) : Bytes → α → ℕ → α × ℕ
  | [], acc, pos => (acc, pos)
  | b :: rest, acc, pos =>
    if isDigit b then scanDigits push rest (push acc (digitVal b)) (pos + 1) else (acc, pos)

/-- Read an integer. An integer that is not closed reads as `0`. -/
def parseInteger (data : Bytes) (pos : ℕ) : ℤ × ℕ :=
  match data[pos]? with
  | none => (0, pos)
  | some c =>
    if c ≠ chr 'i' then (0, pos + 1) else
    match data[pos + 1]? with
    | none => (0, pos + 1)
    | some c =>
      let neg := c = chr '-'
      let start := if neg then pos + 2 else pos + 1
      let (val, pos) := scanDigits (fun v d => toInt64 (v * 10 + d)) (data.drop start) 0 start
      if data[pos]? ≠ some (chr 'e') then (0, pos)
      else (if neg then toInt64 (-val) else val, pos + 1)

/-- Read a string. The bounds check is done in `size_t`, and a length that
    passes it by wrapping around is refused by `malloc`. -/
def parseString (data : Bytes) (pos : ℕ) : Option (Bytes × ℕ) :=
  let (slen, pos) := scanDigits (fun n d => toSize (n * 10 + d)) (data.drop pos) 0 pos
  if data[pos]? ≠ some (chr ':') then none
  else if toSize (pos + 1 + slen) > data.length then none
  else if slen > PTRDIFF_MAX then none
  else some ((data.drop (pos + 1)).take slen, pos + 1 + slen)

mutual

/-- Read a value, dispatching on its first byte. -/
def parseValue (data : Bytes) : ℕ → ℕ → Option (BcodeNode × ℕ)
  | 0, _ => none
  | fuel + 1, pos =>
    match data[pos]? with
    | none => none
    | some c =>
      if c = chr 'i' then
        let (val, pos) := parseInteger data pos
        some (.int val, pos)
      else if isDigit c then
        (parseString data pos).map fun (str, pos) => (.str str, pos)
      else if c = chr 'l' then
        (parseListItems data fuel (pos + 1)).map fun (items, pos) => (.list items, pos)
      else if c = chr 'd' then
        (parseDictEntries data fuel (pos + 1)).map fun (entries, pos) => (.dict entries, pos)
      else none

/-- The loop of `parse_list`: read values up to the closing `e`. -/
def parseListItems (data : Bytes) : ℕ → ℕ → Option (List BcodeNode × ℕ)
  | 0, _ => none
  | fuel + 1, pos =>
    match data[pos]? with
    | none => none
    | some c =>
      if c = chr 'e' then some ([], pos + 1) else do
        let (child, pos) ← parseValue data fuel pos
        let (items, pos) ← parseListItems data fuel pos
        some (child :: items, pos)

/-- The loop of `parse_dict`: read keys and values up to the closing `e`. -/
def parseDictEntries (data : Bytes) : ℕ → ℕ → Option (List (Bytes × BcodeNode) × ℕ)
  | 0, _ => none
  | fuel + 1, pos =>
    match data[pos]? with
    | none => none
    | some c =>
      if c = chr 'e' then some ([], pos + 1) else do
        let (key, pos) ← parseString data pos
        let (val, pos) ← parseValue data fuel pos
        let (entries, pos) ← parseDictEntries data fuel pos
        some ((key, val) :: entries, pos)

end

/-- Fuel for a whole buffer: every second call reads a byte. -/
def parseFuel (data : Bytes) : ℕ := 2 * data.length + 1

/-- Parse the value at the start of a buffer; what follows it is ignored. -/
def bcodeParse (data : Bytes) : Option BcodeNode :=
  if data = [] then none else (parseValue data (parseFuel data) 0).map Prod.fst

/-! ## Access -/

/-- The first entry of a dictionary with the given key. -/
def bcodeDictGet (entries : List (Bytes × BcodeNode)) (key : Bytes) : Option BcodeNode :=
  (entries.find? fun e => e.1 = key).map Prod.snd

/-- The bytes of a string node. -/
def bcodeStrVal : BcodeNode → Option Bytes
  | .str s => some s
  | _ => none

/-- The value of an integer node, `0` for any other node. -/
def bcodeIntVal : BcodeNode → ℤ
  | .int n => n
  | _ => 0

/-! ## Encoding -/

/-- `%zu:` and the bytes of the string. -/
def encodeString (s : Bytes) : Bytes := Decimal.print s.length ++ chr ':' :: s

/-- `i`, the number as `PRId64` prints it, and `e`. -/
def encodeInt (n : ℤ) : Bytes :=
  chr 'i' :: (if n < 0 then chr '-' :: Decimal.print n.natAbs else Decimal.print n.natAbs)
    ++ [chr 'e']

mutual

/-- The encoding of a node, appended to the growing buffer of the source. -/
def bcodeEncode : BcodeNode → Bytes
  | .str s => encodeString s
  | .int n => encodeInt n
  | .list items => chr 'l' :: encodeItems items ++ [chr 'e']
  | .dict entries => chr 'd' :: encodeEntries entries ++ [chr 'e']

def encodeItems : List BcodeNode → Bytes
  | [] => []
  | item :: items => bcodeEncode item ++ encodeItems items

def encodeEntries : List (Bytes × BcodeNode) → Bytes
  | [] => []
  | (key, val) :: entries => encodeString key ++ bcodeEncode val ++ encodeEntries entries

end

end Bencode

end PS5Torrent
