import PS5Torrent.Bencode.Fuel
import PS5Torrent.Library.Weakest

/-!
# The accesses of the parser

The parser of `bencode.c` over the state that the C functions share: the
position and the outcomes of the allocations, with a record of every byte that
is read or copied, every move of the position and every node, at its depth.
The positions are `size_t` and wrap, a byte that is not in the data can be
read, and an allocation may fail.

All accesses are within the data, in every run (`parser_accesses`), and the
parser is the one without a record if the allocations succeed.
-/

namespace PS5Torrent

namespace Bencode

open Decimal (isDigit digitVal)
open Effect

/-- What the parser does to the data, to its position and to the tree. -/
inductive Access
  | read (i : ℕ)
  | copy (start n : ℕ)
  | moved (pos pos' : ℕ)
  | node (depth : ℕ)

/-- Within `n` bytes of data. -/
def Access.Within (n : ℕ) : Access → Prop
  | read i => i < n
  | copy start len => start + len ≤ n
  | moved pos pos' => pos ≤ pos' ∧ pos' ≤ n
  | node depth => 1 ≤ depth ∧ depth ≤ n

def Access.isNode : Access → Bool
  | node _ => true
  | _ => false

/-- The state of the parser; `heap` tells which allocations succeed. -/
structure ParseState where
  pos : ℕ
  heap : ℕ → Bool
  mallocs : ℕ
  accesses : List Access

/-- Why there is no value: the fuel has run out, or the function returns `NULL`. -/
inductive Stop
  | fuel
  | null

abbrev ParseM := EStateM Stop ParseState

def ParseState.log (s : ParseState) (access : Access) : ParseState :=
  { s with accesses := access :: s.accesses }

def ParseState.move (s : ParseState) (pos : ℕ) : ParseState :=
  { s.log (.moved s.pos pos) with pos := pos }

/-- The number of nodes that were allocated. -/
def ParseState.nodes (s : ParseState) : ℕ := s.accesses.countP Access.isNode

/-! ## Parsing -/

/-- `data[i]` -/
def byteAt (data : Bytes) (i : ℕ) : ParseM UInt8 := fun s =>
  .ok (data.getD i 0) (s.log (.read i))

/-- `st->pos = pos` -/
def moveTo (pos : ℕ) : ParseM Unit := fun s => .ok () (s.move (toSize pos))

/-- Whether an allocation succeeds, of a size that the allocator may accept or not. -/
def allocate (accepted : Bool) : ParseM Bool := fun s =>
  .ok (accepted && s.heap s.mallocs) { s with mallocs := s.mallocs + 1 }

/-- `malloc` fails for requests above `PTRDIFF_MAX`. -/
def malloc (size : ℕ) : ParseM Unit := do
  if ← allocate (size ≤ PTRDIFF_MAX) then return else throw .null

/-- `bcode_new_node`, for a node at a depth. -/
def bcodeNewNode (depth : ℕ) : ParseM Unit := do
  if ← allocate true then fun s => .ok () (s.log (.node depth)) else throw .null

/-- `bcode_add_child` to `count` children in a table for `cap`: whether the child was added, and
    what the table is for then. -/
def bcodeAddChild (count cap : ℕ) : ParseM (Bool × ℕ) :=
  if count ≥ cap then do
    if ← allocate true then return (true, if cap ≠ 0 then cap * 2 else 8) else return (false, cap)
  else return (true, cap)

/-- `memcpy(str, data + start, n)` -/
def copyBytes (data : Bytes) (start n : ℕ) : ParseM Bytes := fun s =>
  .ok ((data.drop start).take n) (s.log (.copy start n))

def parsePeek (data : Bytes) : ParseM (Option UInt8) := do
  let s ← get
  if s.pos ≥ data.length then return none
  return some (← byteAt data s.pos)

def parseAdvance (data : Bytes) : ParseM (Option UInt8) := do
  let s ← get
  if s.pos ≥ data.length then return none
  let c ← byteAt data s.pos
  moveTo (s.pos + 1)
  return some c

/-- The loop over the digits of a numeral. -/
def digitsLoop {α : Type} (data : Bytes) (push : α → ℕ → α) : ℕ → α → ParseM α
  | 0, _ => throw .fuel
  | fuel + 1, acc => do
    let s ← get
    if s.pos < data.length then
      let c ← byteAt data s.pos
      if isDigit c then
        moveTo (s.pos + 1)
        digitsLoop data push fuel (push acc (digitVal c))
      else return acc
    else return acc

/-- The part of `parse_integer` after the sign. -/
def parseDigitsM (data : Bytes) (neg : Bool) : ParseM ℤ := do
  let val ← digitsLoop data (fun v d => toInt64 (v * 10 + d)) (data.length + 1) 0
  let s ← get
  if s.pos ≥ data.length then return 0
  let c ← byteAt data s.pos
  if c ≠ chr 'e' then return 0
  moveTo (s.pos + 1)
  return if neg then toInt64 (-val) else val

def parseIntegerM (data : Bytes) : ParseM ℤ := do
  let c ← parseAdvance data
  if c ≠ some (chr 'i') then return 0
  let s ← get
  if s.pos ≥ data.length then return 0
  let sign ← byteAt data s.pos
  if sign = chr '-' then
    moveTo (s.pos + 1)
    parseDigitsM data true
  else parseDigitsM data false

def parseStringM (data : Bytes) : ParseM Bytes := do
  let slen ← digitsLoop data (fun n d => toSize (n * 10 + d)) (data.length + 1) 0
  let s ← get
  if s.pos ≥ data.length then throw .null
  let c ← byteAt data s.pos
  if c ≠ chr ':' then throw .null
  moveTo (s.pos + 1)
  let s ← get
  if toSize (s.pos + slen) > data.length then throw .null
  malloc slen
  let str ← copyBytes data s.pos slen
  moveTo (s.pos + slen)
  return str

mutual

/-- `parse_value`, for a value at a depth. -/
def parseValueM (data : Bytes) : ℕ → ℕ → ParseM BcodeNode
  | 0, _ => throw .fuel
  | fuel + 1, depth => do
    match ← parsePeek data with
    | none => throw .null
    | some c =>
      if c = chr 'i' then
        bcodeNewNode depth
        return .int (← parseIntegerM data)
      else if isDigit c then
        bcodeNewNode depth
        return .str (← parseStringM data)
      else if c = chr 'l' then
        bcodeNewNode depth
        if (← parseAdvance data) ≠ some (chr 'l') then throw .null
        return .list (← parseListM data fuel depth 0 0)
      else if c = chr 'd' then
        bcodeNewNode depth
        if (← parseAdvance data) ≠ some (chr 'd') then throw .null
        return .dict (← parseDictM data fuel depth 0 0)
      else throw .null
termination_by structural fuel _ => fuel

/-- The loop of `parse_list`, for a list at a depth; a child that is not added is lost. -/
def parseListM (data : Bytes) : ℕ → ℕ → ℕ → ℕ → ParseM (List BcodeNode)
  | 0, _, _, _ => throw .fuel
  | fuel + 1, depth, count, cap => do
    match ← parsePeek data with
    | none => throw .null
    | some c =>
      if c = chr 'e' then
        moveTo ((← get).pos + 1)
        return []
      else
        let child ← parseValueM data fuel (depth + 1)
        let (added, cap) ← bcodeAddChild count cap
        let rest ← parseListM data fuel depth (if added then count + 1 else count) cap
        return if added then child :: rest else rest
termination_by structural fuel _ _ _ => fuel

/-- The loop of `parse_dict`, for a dictionary at a depth. -/
def parseDictM (data : Bytes) : ℕ → ℕ → ℕ → ℕ → ParseM (List (Bytes × BcodeNode))
  | 0, _, _, _ => throw .fuel
  | fuel + 1, depth, count, cap => do
    match ← parsePeek data with
    | none => throw .null
    | some c =>
      if c = chr 'e' then
        moveTo ((← get).pos + 1)
        return []
      else
        bcodeNewNode (depth + 1)
        let key ← parseStringM data
        let val ← parseValueM data fuel (depth + 1)
        let (added, cap) ← bcodeAddChild count cap
        let rest ← parseDictM data fuel depth (if added then count + 1 else count) cap
        return if added then (key, val) :: rest else rest
termination_by structural fuel _ _ _ => fuel

end

/-! ## Steps -/

/-- What a part of a run does: the position does not go back or leave the data, and neither does
    an access. -/
structure Advances (data : Bytes) (s s' : ParseState) : Prop where
  pos_le : s.pos ≤ s'.pos
  le_length : s'.pos ≤ data.length
  within : ∀ access ∈ s'.accesses, access ∈ s.accesses ∨ access.Within data.length
  heap : s'.heap = s.heap

variable {data : Bytes} {s s' s'' : ParseState} {fuel pos : ℕ}

theorem Advances.refl (h : s.pos ≤ data.length) : Advances data s s where
  pos_le := le_rfl
  le_length := h
  within _ := .inl
  heap := rfl

theorem Advances.trans (h : Advances data s s') (h' : Advances data s' s'') :
    Advances data s s'' where
  pos_le := h.pos_le.trans h'.pos_le
  le_length := h'.le_length
  within access haccess := by
    rcases h'.within access haccess with hmem | hwithin
    · exact h.within access hmem
    · exact .inr hwithin
  heap := h'.heap.trans h.heap

/-- An access within the data. -/
theorem advances_log {access : Access} (h : s.pos ≤ data.length)
    (hwithin : access.Within data.length) : Advances data s (s.log access) where
  pos_le := le_rfl
  le_length := h
  within access' haccess := by
    rcases List.mem_cons.1 haccess with rfl | hmem
    · exact .inr hwithin
    · exact .inl hmem
  heap := rfl

/-- Without a node. -/
structure Quiet (data : Bytes) (s s' : ParseState) : Prop extends Advances data s s' where
  nodes : s'.nodes = s.nodes

theorem Quiet.refl (h : s.pos ≤ data.length) : Quiet data s s := ⟨.refl h, rfl⟩

theorem Quiet.trans (h : Quiet data s s') (h' : Quiet data s' s'') : Quiet data s s'' :=
  ⟨h.toAdvances.trans h'.toAdvances, h'.nodes.trans h.nodes⟩

theorem quiet_log {access : Access} (h : s.pos ≤ data.length)
    (hwithin : access.Within data.length) (hnode : access.isNode = false) :
    Quiet data s (s.log access) :=
  ⟨advances_log h hwithin, List.countP_cons_of_neg (by rw [hnode]; exact Bool.false_ne_true)⟩

theorem quiet_read {i : ℕ} (h : s.pos ≤ data.length) (hi : i < data.length) :
    Quiet data s (s.log (.read i)) := quiet_log h hi rfl

/-- The position moves on. -/
theorem quiet_move (hle : s.pos ≤ pos) (h : pos ≤ data.length) :
    Quiet data s (s.move pos) where
  pos_le := hle
  le_length := h
  within access haccess := by
    rcases List.mem_cons.1 haccess with rfl | hmem
    · exact .inr ⟨hle, h⟩
    · exact .inl hmem
  heap := rfl
  nodes := List.countP_cons_of_neg (by exact Bool.false_ne_true)

/-- A position within the data does not wrap. -/
theorem toSize_of_le (hlen : data.length ≤ PTRDIFF_MAX) (h : pos ≤ data.length) :
    toSize pos = pos :=
  toSize_of_lt (lt_of_le_of_lt (h.trans hlen) (by decide))

theorem wp_moveTo {post : Unit → ParseState → Prop} {fail : Stop → ParseState → Prop}
    (hlen : data.length ≤ PTRDIFF_MAX) (h : pos ≤ data.length) :
    wp (moveTo pos) post fail s ↔ post () (s.move pos) := by
  rw [wp, moveTo, toSize_of_le hlen h]

theorem wp_byteAt {post : UInt8 → ParseState → Prop} {fail : Stop → ParseState → Prop} {i : ℕ} :
    wp (byteAt data i) post fail s ↔ post (data.getD i 0) (s.log (.read i)) := Iff.rfl

theorem wp_copyBytes {post : Bytes → ParseState → Prop} {fail : Stop → ParseState → Prop}
    {start n : ℕ} :
    wp (copyBytes data start n) post fail s ↔
      post ((data.drop start).take n) (s.log (.copy start n)) := Iff.rfl

/-- An allocation changes nothing else. -/
theorem quiet_allocate (h : s.pos ≤ data.length) :
    Quiet data s { s with mallocs := s.mallocs + 1 } :=
  ⟨⟨le_rfl, h, fun _ => .inl, rfl⟩, rfl⟩

theorem wp_malloc (h : s.pos ≤ data.length) (size : ℕ) :
    wp (malloc size) (fun _ s' => Quiet data s s' ∧ s'.pos = s.pos ∧ size ≤ PTRDIFF_MAX)
      (fun e s' => Quiet data s s' ∧ e = .null ∧ ((∀ k, s.heap k) → PTRDIFF_MAX < size)) s := by
  rw [malloc, wp_bind]
  refine wp_ite (fun hsucceeds => ?_) fun hfails => ?_
  · rw [Bool.and_eq_true, decide_eq_true_eq] at hsucceeds
    exact ⟨quiet_allocate h, rfl, hsucceeds.1⟩
  · refine ⟨quiet_allocate h, rfl, fun hheap => not_le.1 fun hsize => hfails ?_⟩
    rw [hheap, Bool.and_true]
    exact decide_eq_true hsize

theorem wp_bcodeNewNode (h : s.pos ≤ data.length) {depth : ℕ} (hpos : 1 ≤ depth)
    (hdepth : depth ≤ data.length) :
    wp (bcodeNewNode depth)
      (fun _ s' => Advances data s s' ∧ s'.pos = s.pos ∧ s'.nodes = s.nodes + 1)
      (fun e s' => Quiet data s s' ∧ e = .null ∧ ¬∀ k, s.heap k) s := by
  rw [bcodeNewNode, wp_bind]
  refine wp_ite (fun _ => ?_) fun hfails => ?_
  · have hnode : (Access.node depth).Within data.length := ⟨hpos, hdepth⟩
    exact ⟨(quiet_allocate h).toAdvances.trans (advances_log h hnode), rfl,
      List.countP_cons_of_pos rfl⟩
  · refine ⟨quiet_allocate h, rfl, fun hheap => hfails ?_⟩
    rw [hheap, Bool.and_true]

theorem wp_bcodeAddChild (h : s.pos ≤ data.length) (count cap : ℕ) :
    wp (bcodeAddChild count cap)
      (fun r s' => Quiet data s s' ∧ s'.pos = s.pos ∧ ((∀ k, s.heap k) → r.1 = true))
      (fun _ _ => False) s := by
  rw [bcodeAddChild]
  refine wp_ite (fun _ => ?_) fun _ => ⟨.refl h, rfl, fun _ => rfl⟩
  rw [wp_bind]
  refine wp_ite (fun _ => ⟨quiet_allocate h, rfl, fun _ => rfl⟩) fun hfails => ?_
  refine ⟨quiet_allocate h, rfl, fun hheap => absurd ?_ hfails⟩
  rw [hheap, Bool.and_true]

/-- The next byte. -/
theorem wp_parsePeek (h : s.pos ≤ data.length) :
    wp (parsePeek data)
      (fun c s' => Quiet data s s' ∧ s'.pos = s.pos ∧ c = data[s.pos]?) (fun _ _ => False) s := by
  rw [parsePeek, wp_bind, wp_get]
  refine wp_ite (fun hend => ?_) fun hin => ?_
  · exact ⟨.refl h, rfl, (List.getElem?_eq_none hend).symm⟩
  · have hlt : s.pos < data.length := not_le.1 hin
    rw [wp_bind, wp_byteAt, wp_pure]
    refine ⟨quiet_read h hlt, rfl, ?_⟩
    rw [List.getD_eq_getElem?_getD, List.getElem?_eq_getElem hlt, Option.getD_some]

theorem wp_parseAdvance (hlen : data.length ≤ PTRDIFF_MAX) {c : UInt8}
    (hc : data[s.pos]? = some c) :
    wp (parseAdvance data)
      (fun c' s' => Quiet data s s' ∧ s'.pos = s.pos + 1 ∧ c' = some c) (fun _ _ => False) s := by
  obtain ⟨hlt, hget⟩ := List.getElem?_eq_some_iff.1 hc
  rw [parseAdvance, wp_bind, wp_get]
  refine wp_ite (fun hend => absurd hlt (not_lt.2 hend)) fun _ => ?_
  rw [wp_bind, wp_byteAt, wp_bind, wp_moveTo hlen hlt, wp_pure]
  refine ⟨(quiet_read hlt.le hlt).trans (quiet_move (Nat.le_succ _) hlt), rfl, ?_⟩
  rw [List.getD_eq_getElem?_getD, hc, Option.getD_some]

/-- The digits of a numeral, as they are scanned. -/
theorem wp_digitsLoop {α : Type} (hlen : data.length ≤ PTRDIFF_MAX) (push : α → ℕ → α) (acc : α)
    (h : s.pos ≤ data.length) (hfuel : data.length - s.pos < fuel) :
    wp (digitsLoop data push fuel acc)
      (fun acc' s' => Quiet data s s' ∧
        (acc', s'.pos) = scanDigits push (data.drop s.pos) acc s.pos) (fun _ _ => False) s := by
  induction fuel generalizing s acc with
  | zero => exact absurd hfuel (Nat.not_lt_zero _)
  | succ fuel ih =>
    rw [digitsLoop, wp_bind, wp_get]
    refine wp_ite (fun hlt => ?_) fun hend => ?_
    · have hbyte : data.getD s.pos 0 = data[s.pos] := by
        rw [List.getD_eq_getElem?_getD, List.getElem?_eq_getElem hlt, Option.getD_some]
      rw [List.drop_eq_getElem_cons hlt, scanDigits, wp_bind, wp_byteAt, hbyte]
      refine wp_ite (fun hdigit => ?_) fun hdigit => ?_
      · rw [if_pos hdigit, wp_bind, wp_moveTo hlen hlt]
        have hless : data.length - (s.pos + 1) < fuel := by omega
        refine wp_mono (ih _ hlt hless) (fun acc' s' hrest => ?_)
          fun _ _ h => h.elim
        exact ⟨((quiet_read h hlt).trans (quiet_move (Nat.le_succ _) hlt)).trans hrest.1,
          hrest.2⟩
      · rw [if_neg hdigit]
        exact ⟨quiet_read h hlt, rfl⟩
    · rw [List.drop_eq_nil_of_le (not_lt.1 hend), scanDigits]
      exact ⟨.refl h, rfl⟩

/-! ## Integers and strings -/

theorem getElem?_eq_getD {i : ℕ} (hi : i < data.length) : data[i]? = some (data.getD i 0) := by
  rw [List.getD_eq_getElem?_getD, List.getElem?_eq_getElem hi, Option.getD_some]

/-- The digits and the end of an integer. -/
theorem wp_parseDigitsM (hlen : data.length ≤ PTRDIFF_MAX) (h : s.pos ≤ data.length) (neg : Bool) :
    wp (parseDigitsM data neg)
      (fun v s' => Quiet data s s' ∧
        (v, s'.pos) =
          let r := scanDigits (fun v d => toInt64 (v * 10 + d)) (data.drop s.pos) 0 s.pos
          if data[r.2]? ≠ some (chr 'e') then (0, r.2)
          else (if neg then toInt64 (-r.1) else r.1, r.2 + 1))
      (fun _ _ => False) s := by
  rw [parseDigitsM]
  refine wp_bind_of (wp_digitsLoop hlen _ 0 h (Nat.lt_succ_of_le (Nat.sub_le ..)))
    (fun val s₁ h₁ => ?_) fun _ _ h => h.elim
  obtain ⟨hquiet, hscan⟩ := h₁
  rw [← hscan, wp_bind, wp_get]
  dsimp only
  refine wp_ite (fun hend => ?_) fun hin => ?_
  · rw [List.getElem?_eq_none hend]
    exact ⟨hquiet, rfl⟩
  have hlt : s₁.pos < data.length := not_le.1 hin
  rw [wp_bind, wp_byteAt, getElem?_eq_getD hlt]
  have hread := hquiet.trans (quiet_read hlt.le hlt)
  refine wp_ite (fun hc => ?_) fun hc => ?_
  · rw [if_pos (fun heq => hc (Option.some.inj heq))]
    exact ⟨hread, rfl⟩
  · rw [wp_bind, wp_moveTo hlen hlt, wp_pure, if_neg (not_not.2 (congrArg some (not_not.1 hc)))]
    exact ⟨hread.trans (quiet_move (Nat.le_succ _) hlt), rfl⟩

/-- An integer is read as the parser reads it. -/
theorem wp_parseIntegerM (hlen : data.length ≤ PTRDIFF_MAX) (hc : data[s.pos]? = some (chr 'i')) :
    wp (parseIntegerM data)
      (fun v s' => Quiet data s s' ∧ (v, s'.pos) = parseInteger data s.pos) (fun _ _ => False) s := by
  rw [parseIntegerM]
  refine wp_bind_of (wp_parseAdvance hlen hc) (fun c s₁ h₁ => ?_) fun _ _ h => h.elim
  obtain ⟨hquiet₁, hpos₁, rfl⟩ := h₁
  rw [if_neg (not_not.2 rfl), wp_bind, wp_get, parseInteger, hc]
  dsimp only
  rw [if_neg (not_not.2 rfl)]
  refine wp_ite (fun hend => ?_) fun hin => ?_
  · rw [List.getElem?_eq_none (hpos₁ ▸ hend)]
    exact ⟨hquiet₁, by rw [hpos₁]⟩
  have hlt₁ : s₁.pos < data.length := not_le.1 hin
  have hread := hquiet₁.trans (quiet_read hlt₁.le hlt₁)
  rw [wp_bind, wp_byteAt, ← hpos₁, getElem?_eq_getD hlt₁]
  dsimp only
  refine wp_ite (fun hsign => ?_) fun hsign => ?_
  · rw [wp_bind, wp_moveTo hlen hlt₁]
    have hmove := hread.trans (quiet_move (Nat.le_succ s₁.pos) hlt₁)
    refine wp_mono (wp_parseDigitsM hlen hmove.le_length true) (fun v s₂ h₂ => ?_)
      fun _ _ h => h.elim
    refine ⟨hmove.trans h₂.1, h₂.2.trans ?_⟩
    have hstart : ((s₁.log (.read s₁.pos)).move (s₁.pos + 1)).pos = s.pos + 2 :=
      congrArg Nat.succ hpos₁
    simp only [hstart, if_pos hsign, if_true]
  · refine wp_mono (wp_parseDigitsM hlen hread.le_length false) (fun v s₂ h₂ => ?_)
      fun _ _ h => h.elim
    refine ⟨hread.trans h₂.1, h₂.2.trans ?_⟩
    simp only [if_neg hsign, Bool.false_eq_true, if_false]
    rfl

/-- A string is read as the parser reads it, if there is memory for it. -/
theorem wp_parseStringM (hlen : data.length ≤ PTRDIFF_MAX) (h : s.pos ≤ data.length) :
    wp (parseStringM data)
      (fun str s' => Quiet data s s' ∧ parseString data s.pos = some (str, s'.pos))
      (fun e s' => Quiet data s s' ∧ e = .null ∧
        ((∀ k, s.heap k) → parseString data s.pos = none)) s := by
  rw [parseStringM]
  refine wp_bind_of (wp_digitsLoop hlen _ 0 h (Nat.lt_succ_of_le (Nat.sub_le ..)))
    (fun slen s₁ h₁ => ?_) fun _ _ h => h.elim
  obtain ⟨hquiet₁, hscan⟩ := h₁
  rw [wp_bind, wp_get, parseString, ← hscan]
  dsimp only
  refine wp_ite (fun hend => ?_) fun hin => ?_
  · rw [List.getElem?_eq_none hend]
    exact ⟨hquiet₁, rfl, fun _ => rfl⟩
  have hlt₁ : s₁.pos < data.length := not_le.1 hin
  have hread := hquiet₁.trans (quiet_read hlt₁.le hlt₁)
  rw [wp_bind, wp_byteAt, getElem?_eq_getD hlt₁]
  refine wp_ite (fun hc => ?_) fun hc => ?_
  · rw [if_pos (fun heq => hc (Option.some.inj heq))]
    exact ⟨hread, rfl, fun _ => rfl⟩
  rw [if_neg (not_not.2 (congrArg some (not_not.1 hc))), wp_bind, wp_moveTo hlen hlt₁, wp_bind,
    wp_get]
  have hmove := hread.trans (quiet_move (Nat.le_succ s₁.pos) hlt₁)
  have hpos : ((s₁.log (.read s₁.pos)).move (s₁.pos + 1)).pos = s₁.pos + 1 := rfl
  generalize (s₁.log (.read s₁.pos)).move (s₁.pos + 1) = s₂ at hmove hpos
  rw [← hpos]
  refine wp_ite (fun hover => ?_) fun hfits => ?_
  · rw [if_pos hover]
    exact ⟨hmove, rfl, fun _ => rfl⟩
  rw [if_neg hfits]
  refine wp_bind_of (wp_malloc hmove.le_length slen) (fun _ s₃ h₃ => ?_) fun e s₃ h₃ => ?_
  · obtain ⟨hquiet₃, hpos₃, hslen⟩ := h₃
    -- What the allocator grants is too small to wrap.
    have hsum : toSize (s₂.pos + slen) = s₂.pos + slen := by
      refine toSize_of_lt (lt_of_le_of_lt (Nat.add_le_add (hmove.le_length.trans hlen) hslen) ?_)
      decide
    have hle : s₂.pos + slen ≤ data.length := hsum ▸ not_lt.1 hfits
    have hcopy : (Access.copy s₂.pos slen).Within data.length := hle
    have hquiet := (hmove.trans hquiet₃).trans
      (quiet_log hquiet₃.le_length hcopy rfl)
    rw [wp_bind, wp_copyBytes, wp_bind, wp_moveTo hlen hle, wp_pure, if_neg (not_lt.2 hslen)]
    exact ⟨hquiet.trans (quiet_move (hpos₃.le.trans (Nat.le_add_right ..)) hle), rfl⟩
  · obtain ⟨hquiet₃, rfl, hsize⟩ := h₃
    refine ⟨hmove.trans hquiet₃, rfl, fun hheap => if_pos (hsize fun k => ?_)⟩
    rw [hmove.heap]
    exact hheap k

/-! ## Values -/

/-- What a part of a run does that allocates at most a node for every byte up to `last`. -/
structure Spans (data : Bytes) (last : ℕ) (s s' : ParseState) : Prop extends
    Advances data s s' where
  nodes_le : s'.nodes + s.pos ≤ s.nodes + last

variable {last : ℕ}

theorem Spans.trans (h : Spans data s'.pos s s') (h' : Spans data last s' s'') :
    Spans data last s s'' where
  toAdvances := h.toAdvances.trans h'.toAdvances
  nodes_le := by
    have := h.nodes_le
    have := h'.nodes_le
    omega

theorem Quiet.spans (h : Quiet data s s') (hlast : s.pos ≤ last) : Spans data last s s' where
  toAdvances := h.toAdvances
  nodes_le := by
    rw [h.nodes]
    exact Nat.add_le_add_left hlast _

/-- A node, and at least one byte for it. -/
theorem spans_node (h : Advances data s s')
    (hnodes : s'.nodes = s.nodes + 1) (h' : Quiet data s' s'') (hlast : s.pos < last) :
    Spans data last s s'' where
  toAdvances := h.trans h'.toAdvances
  nodes_le := by
    rw [h'.nodes, hnodes, Nat.add_right_comm, Nat.add_assoc]
    exact Nat.add_le_add_left hlast _

variable {α : Type} {parsed parsed' : Option (α × ℕ)} {enough enough' : Prop} {a : α} {e : Stop}

/-- How a function returns what it has parsed: bytes were consumed, and it is what the parser
    reads if there is memory. -/
structure Done (data : Bytes) (s : ParseState) (parsed : Option (α × ℕ)) (a : α)
    (s' : ParseState) : Prop extends Spans data s'.pos s s' where
  lt : s.pos < s'.pos
  parsed_eq : (∀ k, s.heap k) → parsed = some (a, s'.pos)

/-- How a function returns `NULL`, or runs out of a fuel that was not enough. -/
structure Failed (data : Bytes) (s : ParseState) (parsed : Option (α × ℕ)) (enough : Prop)
    (e : Stop) (s' : ParseState) : Prop extends Spans data data.length s s' where
  eq_null : enough → e = .null
  parsed_eq : (∀ k, s.heap k) → parsed = none

/-- A failure after a part of the run that went well. -/
theorem Failed.after {β : Type} {parsed : Option (β × ℕ)} (h : Failed data s' parsed enough e s'')
    (hs : Spans data s'.pos s s') (henough : enough' → enough)
    (hparsed : (∀ k, s.heap k) → parsed = none → parsed' = none) :
    Failed data s parsed' enough' e s'' where
  toSpans := hs.trans h.toSpans
  eq_null h' := h.eq_null (henough h')
  parsed_eq hheap := hparsed hheap (h.parsed_eq (hs.heap ▸ hheap))

/-- A failure of the function itself. -/
theorem failed_of_null (hs : Spans data data.length s s')
    (hparsed : (∀ k, s.heap k) → parsed = none) : Failed data s parsed enough .null s' where
  toSpans := hs
  eq_null _ := rfl
  parsed_eq := hparsed

/-- The specification of `parseValueM` with a fuel. -/
def ValueSpec (data : Bytes) (fuel : ℕ) : Prop :=
  ∀ (s : ParseState) (depth : ℕ), s.pos ≤ data.length → 1 ≤ depth → depth ≤ s.pos + 1 →
    wp (parseValueM data fuel depth) (Done data s (parseValue data fuel s.pos))
      (Failed data s (parseValue data fuel s.pos) (1 ≤ fuel ∧ 2 * (data.length - s.pos) ≤ fuel)) s

def ListSpec (data : Bytes) (fuel : ℕ) : Prop :=
  ∀ (s : ParseState) (depth count cap : ℕ), s.pos ≤ data.length → 1 ≤ depth → depth ≤ s.pos →
    wp (parseListM data fuel depth count cap) (Done data s (parseListItems data fuel s.pos))
      (Failed data s (parseListItems data fuel s.pos) (2 * (data.length - s.pos) + 1 ≤ fuel)) s

def DictSpec (data : Bytes) (fuel : ℕ) : Prop :=
  ∀ (s : ParseState) (depth count cap : ℕ), s.pos ≤ data.length → 1 ≤ depth → depth ≤ s.pos →
    wp (parseDictM data fuel depth count cap) (Done data s (parseDictEntries data fuel s.pos))
      (Failed data s (parseDictEntries data fuel s.pos) (2 * (data.length - s.pos) + 1 ≤ fuel)) s

/-- The node of a value is allocated before the value is read. -/
theorem wp_node {β : Type} {depth : ℕ} {rest : ParseM β} {post : β → ParseState → Prop}
    {parsed : Option (β × ℕ)} (hquiet : Quiet data s s') (hsame : s'.pos = s.pos)
    (hlt : s.pos < data.length) (hpos : 1 ≤ depth) (hdepth : depth ≤ s.pos + 1)
    (h : ∀ s'', Advances data s s'' → s''.pos = s.pos → s''.nodes = s.nodes + 1 →
      wp rest post (Failed data s parsed enough) s'') :
    wp (do bcodeNewNode depth; rest) post (Failed data s parsed enough) s' := by
  refine wp_bind_of (wp_bcodeNewNode hquiet.le_length hpos (hdepth.trans hlt)) (fun _ s₁ h₁ => ?_)
    fun e s₁ h₁ => ?_
  · obtain ⟨hadv, hpos₁, hnodes⟩ := h₁
    exact h s₁ (hquiet.toAdvances.trans hadv) (hpos₁.trans hsame) (hquiet.nodes ▸ hnodes)
  · obtain ⟨hquiet₁, rfl, hheap⟩ := h₁
    rw [hquiet.heap] at hheap
    exact failed_of_null ((hquiet.trans hquiet₁).spans hlt.le) fun hall => absurd hall hheap

/-- A list or a dictionary, whose node is allocated, by the loop that reads the rest of it. -/
theorem wp_opened {items : Option (α × ℕ)} {rest : ParseM α} {f : α → BcodeNode} {b : UInt8}
    (hlen : data.length ≤ PTRDIFF_MAX) (hb : data[s.pos]? = some b) (hadv : Advances data s s')
    (hpos : s'.pos = s.pos) (hnodes : s'.nodes = s.nodes + 1)
    (hrest : ∀ s'', s''.pos = s.pos + 1 → s''.pos ≤ data.length →
      wp rest (Done data s'' items)
        (Failed data s'' items (2 * (data.length - s''.pos) + 1 ≤ fuel)) s'') :
    wp (do
        if (← parseAdvance data) ≠ some b then throw .null
        return f (← rest))
      (Done data s (items.map fun (x, pos) => (f x, pos)))
      (Failed data s (items.map fun (x, pos) => (f x, pos))
        (1 ≤ fuel + 1 ∧ 2 * (data.length - s.pos) ≤ fuel + 1)) s' := by
  obtain ⟨hlt, -⟩ := List.getElem?_eq_some_iff.1 hb
  refine wp_bind_of (wp_parseAdvance hlen (hpos ▸ hb)) (fun c s₁ h₁ => ?_) fun _ _ h => h.elim
  obtain ⟨hquiet₁, hpos₁, rfl⟩ := h₁
  rw [hpos] at hpos₁
  have hs : Spans data s₁.pos s s₁ := spans_node hadv hnodes hquiet₁ (by omega)
  rw [if_neg (not_not.2 rfl)]
  refine wp_bind_of (hrest s₁ hpos₁ hs.le_length) (fun x s₂ h₂ => ?_) fun e s₂ h₂ => ?_
  · refine ⟨hs.trans h₂.toSpans, hs.pos_le.trans_lt h₂.lt, fun hheap => ?_⟩
    rw [h₂.parsed_eq (hs.heap ▸ hheap), Option.map_some]
  · refine h₂.after hs (fun henough => ?_) fun _ hnone => ?_
    · omega
    · rw [hnone, Option.map_none]

/-- A value: the first byte tells of what kind. -/
theorem valueSpec_succ (hlen : data.length ≤ PTRDIFF_MAX) (hl : ListSpec data fuel)
    (hd : DictSpec data fuel) : ValueSpec data (fuel + 1) := by
  intro s depth h hpos hdepth
  rw [parseValueM, parseValue]
  refine wp_bind_of (wp_parsePeek h) (fun c s₁ h₁ => ?_) fun _ _ h => h.elim
  obtain ⟨hquiet₁, hpos₁, rfl⟩ := h₁
  cases hc : data[s.pos]? with
  | none => exact failed_of_null (hquiet₁.spans h) fun _ => rfl
  | some c =>
    obtain ⟨hlt, -⟩ := List.getElem?_eq_some_iff.1 hc
    dsimp only
    refine wp_ite (fun hi => ?_) fun hi => ?_
    · subst hi
      refine wp_node hquiet₁ hpos₁ hlt hpos hdepth fun s₂ hadv hpos₂ hnodes => ?_
      have hc₂ : data[s₂.pos]? = some (chr 'i') := hpos₂ ▸ hc
      refine wp_bind_of (wp_parseIntegerM hlen hc₂) (fun v s₃ h₃ => ?_) fun _ _ h => h.elim
      obtain ⟨hquiet₃, hval⟩ := h₃
      rw [hpos₂] at hval
      have hprogress : s.pos < s₃.pos :=
        (lt_parseInteger hc).trans_eq (congrArg Prod.snd hval).symm
      rw [if_pos rfl, ← hval]
      exact ⟨spans_node hadv hnodes hquiet₃ hprogress, hprogress, fun _ => rfl⟩
    rw [if_neg hi]
    refine wp_ite (fun hdigit => ?_) fun hdigit => ?_
    · rw [if_pos hdigit]
      refine wp_node hquiet₁ hpos₁ hlt hpos hdepth fun s₂ hadv hpos₂ hnodes => ?_
      refine wp_bind_of (wp_parseStringM hlen hadv.le_length) (fun str s₃ h₃ => ?_)
        fun e s₃ h₃ => ?_
      · obtain ⟨hquiet₃, hstr⟩ := h₃
        rw [hpos₂] at hstr
        have hprogress : s.pos < s₃.pos := lt_parseString hstr
        rw [hstr]
        exact ⟨spans_node hadv hnodes hquiet₃ hprogress, hprogress, fun _ => rfl⟩
      · obtain ⟨hquiet₃, rfl, hnone⟩ := h₃
        rw [hpos₂, hadv.heap] at hnone
        refine failed_of_null (spans_node hadv hnodes hquiet₃ hlt) fun hheap => ?_
        rw [hnone hheap, Option.map_none]
    rw [if_neg hdigit]
    refine wp_ite (fun hlist => ?_) fun hlist => ?_
    · subst hlist
      rw [if_pos rfl]
      refine wp_node hquiet₁ hpos₁ hlt hpos hdepth fun s₂ hadv hpos₂ hnodes => ?_
      refine wp_opened hlen hc hadv hpos₂ hnodes fun s₃ hpos₃ hle => ?_
      rw [← hpos₃]
      exact hl s₃ depth 0 0 hle hpos (hpos₃ ▸ hdepth)
    rw [if_neg hlist]
    refine wp_ite (fun hdict => ?_) fun hdict => ?_
    · subst hdict
      rw [if_pos rfl]
      refine wp_node hquiet₁ hpos₁ hlt hpos hdepth fun s₂ hadv hpos₂ hnodes => ?_
      refine wp_opened hlen hc hadv hpos₂ hnodes fun s₃ hpos₃ hle => ?_
      rw [← hpos₃]
      exact hd s₃ depth 0 0 hle hpos (hpos₃ ▸ hdepth)
    · rw [if_neg hdict]
      exact failed_of_null (hquiet₁.spans h) fun _ => rfl

/-- The closing `e` of a list or a dictionary. -/
theorem wp_close {items : List α} (hlen : data.length ≤ PTRDIFF_MAX) (hquiet : Quiet data s s')
    (hpos : s'.pos = s.pos) (hlt : s.pos < data.length) {fail : Stop → ParseState → Prop} :
    wp (do moveTo ((← get).pos + 1); return items)
      (Done data s (some (items, s.pos + 1))) fail s' := by
  rw [wp_bind, wp_get, wp_bind, hpos, wp_moveTo hlen hlt, wp_pure]
  have hmove := hquiet.trans (quiet_move (hpos.le.trans (Nat.le_succ _)) hlt)
  exact ⟨hmove.spans (Nat.le_succ _), Nat.lt_succ_self _, fun _ => rfl⟩

/-- A child of a list or a dictionary, and the rest of it. -/
theorem wp_child {β : Type} {f : BcodeNode → β} {rest : ℕ → ℕ → ParseM (List β)}
    {parsedRest : ℕ → Option (List β × ℕ)} {depth : ℕ} (hv : ValueSpec data fuel)
    (hs : Spans data s'.pos s s') (hpos : s'.pos = pos) (hlt : s.pos < data.length)
    (hdepth : depth ≤ pos) (count cap : ℕ)
    (hrest : ∀ count cap s'', s.pos ≤ s''.pos → s''.pos ≤ data.length →
      wp (rest count cap) (Done data s'' (parsedRest s''.pos))
        (Failed data s'' (parsedRest s''.pos) (2 * (data.length - s''.pos) + 1 ≤ fuel)) s'') :
    wp (do
        let child ← parseValueM data fuel (depth + 1)
        let (added, cap) ← bcodeAddChild count cap
        let rest ← rest (if added then count + 1 else count) cap
        return if added then f child :: rest else rest)
      (Done data s (do
        let (child, pos) ← parseValue data fuel pos
        let (items, pos) ← parsedRest pos
        some (f child :: items, pos)))
      (Failed data s (do
        let (child, pos) ← parseValue data fuel pos
        let (items, pos) ← parsedRest pos
        some (f child :: items, pos)) (2 * (data.length - s.pos) + 1 ≤ fuel + 1)) s' := by
  subst hpos
  have hle := hs.pos_le
  refine wp_bind_of (hv s' (depth + 1) hs.le_length (Nat.succ_pos _) (Nat.succ_le_succ hdepth))
    (fun child s₁ h₁ => ?_) fun e s₁ h₁ => ?_
  · have hprogress := h₁.lt
    have hs₁ := hs.trans h₁.toSpans
    refine wp_bind_of (wp_bcodeAddChild hs₁.le_length count cap) (fun r s₂ h₂ => ?_)
      fun _ _ h => h.elim
    obtain ⟨hquiet₂, hpos₂, hadded⟩ := h₂
    have hs₂ : Spans data s₂.pos s s₂ := hpos₂ ▸ hs₁.trans (hquiet₂.spans le_rfl)
    have hvalue : (∀ k, s.heap k) → parseValue data fuel s'.pos = some (child, s₂.pos) :=
      fun hheap => hpos₂ ▸ h₁.parsed_eq (hs.heap ▸ hheap)
    refine wp_bind_of (hrest _ _ s₂ hs₂.pos_le hs₂.le_length) (fun items s₃ h₃ => ?_)
      fun e s₃ h₃ => ?_
    · refine ⟨hs₂.trans h₃.toSpans, hs₂.pos_le.trans_lt h₃.lt, fun hheap => ?_⟩
      rw [hvalue hheap, if_pos (hadded (hs₁.heap ▸ hheap)), Option.bind_eq_bind, Option.bind_some]
      exact Option.bind_eq_some_iff.2 ⟨_, h₃.parsed_eq (hs₂.heap ▸ hheap), rfl⟩
    · refine h₃.after hs₂ (fun henough => ?_) fun hheap hnone => ?_
      · omega
      · rw [hvalue hheap, Option.bind_eq_bind, Option.bind_some, Option.bind_eq_bind]
        exact Option.bind_eq_none_iff.2 fun _ h => absurd (hnone.symm.trans h) nofun
  · refine h₁.after hs (fun henough => ?_) fun _ hnone => ?_
    · omega
    · rw [hnone]
      rfl

/-- A list: a value that is read, and the rest. -/
theorem listSpec_succ (hlen : data.length ≤ PTRDIFF_MAX) (hv : ValueSpec data fuel)
    (hl : ListSpec data fuel) : ListSpec data (fuel + 1) := by
  intro s depth count cap h hpos hdepth
  rw [parseListM, parseListItems]
  refine wp_bind_of (wp_parsePeek h) (fun c s₁ h₁ => ?_) fun _ _ h => h.elim
  obtain ⟨hquiet₁, hpos₁, rfl⟩ := h₁
  cases hc : data[s.pos]? with
  | none => exact failed_of_null (hquiet₁.spans h) fun _ => rfl
  | some c =>
    obtain ⟨hlt, -⟩ := List.getElem?_eq_some_iff.1 hc
    dsimp only
    refine wp_ite (fun hend => ?_) fun hend => ?_
    · rw [if_pos hend]
      exact wp_close hlen hquiet₁ hpos₁ hlt
    rw [if_neg hend]
    exact wp_child (f := id) hv (hquiet₁.spans hpos₁.ge) hpos₁ hlt hdepth count cap
      fun count cap s' hle hle' => hl s' depth count cap hle' hpos (hdepth.trans hle)

/-- A dictionary: the node of an entry for its key, a value, and the rest. -/
theorem dictSpec_succ (hlen : data.length ≤ PTRDIFF_MAX) (hv : ValueSpec data fuel)
    (hd : DictSpec data fuel) : DictSpec data (fuel + 1) := by
  intro s depth count cap h hpos hdepth
  rw [parseDictM, parseDictEntries]
  refine wp_bind_of (wp_parsePeek h) (fun c s₁ h₁ => ?_) fun _ _ h => h.elim
  obtain ⟨hquiet₁, hpos₁, rfl⟩ := h₁
  cases hc : data[s.pos]? with
  | none => exact failed_of_null (hquiet₁.spans h) fun _ => rfl
  | some c =>
    obtain ⟨hlt, -⟩ := List.getElem?_eq_some_iff.1 hc
    dsimp only
    refine wp_ite (fun hend => ?_) fun hend => ?_
    · rw [if_pos hend]
      exact wp_close hlen hquiet₁ hpos₁ hlt
    rw [if_neg hend]
    refine wp_node hquiet₁ hpos₁ hlt (Nat.succ_pos _) (Nat.succ_le_succ hdepth)
      fun s₂ hadv hpos₂ hnodes => ?_
    refine wp_bind_of (wp_parseStringM hlen hadv.le_length) (fun key s₃ h₃ => ?_)
      fun e s₃ h₃ => ?_
    · obtain ⟨hquiet₃, hkey⟩ := h₃
      rw [hpos₂] at hkey
      have hkeyLt : s.pos < s₃.pos := lt_parseString hkey
      rw [hkey, Option.bind_eq_bind, Option.bind_some]
      exact wp_child (f := Prod.mk key) hv (spans_node hadv hnodes hquiet₃ hkeyLt) rfl hlt
        (hdepth.trans hkeyLt.le) count cap
        fun count cap s' hle hle' => hd s' depth count cap hle' hpos (hdepth.trans hle)
    · obtain ⟨hquiet₃, rfl, hnone⟩ := h₃
      rw [hpos₂, hadv.heap] at hnone
      refine failed_of_null (spans_node hadv hnodes hquiet₃ hlt) fun hheap => ?_
      rw [hnone hheap]
      rfl

/-- The parser and its loops, for every fuel. -/
theorem parse_spec (hlen : data.length ≤ PTRDIFF_MAX) :
    ∀ fuel : ℕ, ValueSpec data fuel ∧ ListSpec data fuel ∧ DictSpec data fuel
  | 0 => by
    -- Without fuel nothing is read, and no fuel is enough.
    refine ⟨fun s _ h _ _ => ?_, fun s _ _ _ h _ _ => ?_, fun s _ _ _ h _ _ => ?_⟩
    · rw [parseValueM, wp_throw]
      exact ⟨(Quiet.refl h).spans h, fun henough => absurd henough.1 (by omega), fun _ => rfl⟩
    · rw [parseListM, wp_throw]
      exact ⟨(Quiet.refl h).spans h, fun henough => absurd henough (by omega), fun _ => rfl⟩
    · rw [parseDictM, wp_throw]
      exact ⟨(Quiet.refl h).spans h, fun henough => absurd henough (by omega), fun _ => rfl⟩
  | fuel + 1 => by
    obtain ⟨hv, hl, hd⟩ := parse_spec hlen fuel
    exact ⟨valueSpec_succ hlen hl hd, listSpec_succ hlen hv hl, dictSpec_succ hlen hv hd⟩

/-! ## Runs -/

/-- The state in which `bcode_parse` calls `parse_value`. -/
def ParseState.init (heap : ℕ → Bool) : ParseState := ⟨0, heap, 0, []⟩

/-- All that the parser has done is within the data, with at most a node for every byte. -/
structure InData (data : Bytes) (s : ParseState) : Prop where
  pos_le : s.pos ≤ data.length
  nodes_le : s.nodes ≤ data.length
  within : ∀ access ∈ s.accesses, access.Within data.length

theorem Spans.inData {heap : ℕ → Bool} (h : Spans data last (.init heap) s)
    (hlast : last ≤ data.length) : InData data s where
  pos_le := h.le_length
  nodes_le := by
    have hnodes : s.nodes + 0 ≤ 0 + last := h.nodes_le
    omega
  within access haccess := by
    rcases h.within access haccess with hmem | hwithin
    · exact absurd hmem List.not_mem_nil
    · exact hwithin

/-- The run of the parser on any data, whichever allocations succeed, ends within the fuel, and
    all of it is within the data. A call from any position, as those for the children of a list
    or a dictionary, has passed a byte when it returns a value. -/
theorem parser_accesses (hlen : data.length ≤ PTRDIFF_MAX) :
    (∀ heap : ℕ → Bool, wp (parseValueM data (parseFuel data) 1)
      (fun node s => 0 < s.pos ∧ InData data s ∧
        ((∀ k, heap k) → parseValue data (parseFuel data) 0 = some (node, s.pos)))
      (fun e s => e = .null ∧ InData data s ∧
        ((∀ k, heap k) → parseValue data (parseFuel data) 0 = none)) (.init heap)) ∧
    ∀ (s : ParseState) (depth : ℕ), s.pos ≤ data.length → 1 ≤ depth → depth ≤ s.pos + 1 →
      wp (parseValueM data (parseFuel data) depth)
        (fun _ s' => s.pos < s'.pos ∧ s'.pos ≤ data.length)
        (fun e s' => e = .null ∧ s.pos ≤ s'.pos ∧ s'.pos ≤ data.length) s := by
  have hfuel (pos : ℕ) : 1 ≤ parseFuel data ∧ 2 * (data.length - pos) ≤ parseFuel data := by
    rw [parseFuel]
    omega
  refine ⟨fun heap => ?_, fun s depth h hpos hdepth => ?_⟩
  · have hrun := (parse_spec hlen (parseFuel data)).1 (.init heap) 1 (Nat.zero_le _) le_rfl le_rfl
    refine wp_mono hrun (fun node s hdone => ?_) fun e s hfailed => ?_
    · exact ⟨hdone.lt, hdone.toSpans.inData hdone.le_length, hdone.parsed_eq⟩
    · exact ⟨hfailed.eq_null (hfuel 0), hfailed.toSpans.inData le_rfl, hfailed.parsed_eq⟩
  · refine wp_mono ((parse_spec hlen (parseFuel data)).1 s depth h hpos hdepth)
      (fun _ s' hdone => ?_) fun e s' hfailed => ?_
    · exact ⟨hdone.lt, hdone.le_length⟩
    · exact ⟨hfailed.eq_null (hfuel s.pos), hfailed.pos_le, hfailed.le_length⟩

/-- A list with a string, of two nodes. -/
theorem parser_accesses_list :
    (lit "l1:ae").length ≤ PTRDIFF_MAX ∧
    ∃ node s, parseValueM (lit "l1:ae") (parseFuel (lit "l1:ae")) 1 (.init fun _ => true) =
      .ok node s ∧ s.pos = 5 ∧ s.nodes = 2 ∧ InData (lit "l1:ae") s := by
  have hlen : (lit "l1:ae").length ≤ PTRDIFF_MAX := Nat.le_of_ble_eq_true rfl
  refine ⟨hlen, _, _, rfl, ?_, ?_, ?_⟩
  · rfl
  · rfl
  · exact (wp_ok ((parser_accesses hlen).1 fun _ => true) rfl).2.1

end Bencode

end PS5Torrent
