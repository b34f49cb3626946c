import Mathlib.Algebra.Group.Int.Defs
import Mathlib.Order.Lattice
import Epli.Lib.ExpSearch
import Epli.Lib.Gapped
import Epli.Lib.WordBits

/-!
# The data nodes of ALEX

A leaf of the index keeps its keys in order in an array with gaps. A linear model predicts
the position of a key, a search that starts there finds it, and an insertion goes to the
closest gap. A bitmap tells the entries from the gaps. The positions behind the last entry
hold `kEndSentinel_`, the greatest key.

What the node computes in floating point (the model, the capacity for a density, the
thresholds, the costs) comes from outside: nothing that is proved depends on it.
-/

namespace Epli.Alex

open Lib

variable {K P : Type} [LinearOrder K] [OrderTop K]

/-- `AlexDataNode`. The thresholds are doubles in the source, only ever compared with the
number of keys; here they are rounded up. -/
structure DataNode (K P : Type) where
  keySlots : Nat → K
  payloadSlots : Nat → P
  dataCapacity : Nat
  numKeys : Nat
  bitmap : Nat → BitVec 64
  bitmapSize : Nat
  expansionThreshold : Nat
  contractionThreshold : Nat
  /-- `model_.predict`. -/
  predict : K → Int

/-! ## Helper functions for the bitmap -/

def extractRightmostOne (value : BitVec 64) : BitVec 64 := value &&& -value

def removeRightmostOne (value : BitVec 64) : BitVec 64 := value &&& (value - 1#64)

def countOnes (value : BitVec 64) : Nat := value.cpop.toNat

def getOffset (wordId : Nat) (bit : BitVec 64) : Nat := 64 * wordId + countOnes (bit - 1#64)

namespace DataNode

variable (d : DataNode K P)

def checkExists (pos : Nat) : Bool :=
  decide (d.bitmap (pos / 64) &&& 1#64 <<< (pos % 64) ≠ 0#64)

/-- `first_pos`. -/
def firstPos : Nat := (scanUp d.checkExists d.dataCapacity 0).getD 0

/-- `last_pos`. -/
def lastPos : Nat := (scanDown d.checkExists d.dataCapacity).getD 0

/-- `num_keys_in_range`. -/
def numKeysInRange (left right : Nat) : Nat :=
  let leftBitmapIdx := left / 64
  let rightBitmapIdx := right / 64
  let leftMask := ~~~(1#64 <<< (left % 64) - 1#64)
  let rightMask := 1#64 <<< (right % 64) - 1#64
  if leftBitmapIdx = rightBitmapIdx then
    countOnes (d.bitmap leftBitmapIdx &&& leftMask &&& rightMask)
  else
    countOnes (d.bitmap leftBitmapIdx &&& leftMask) +
      ((List.range' (leftBitmapIdx + 1) (rightBitmapIdx - (leftBitmapIdx + 1))).map fun i =>
        countOnes (d.bitmap i)).sum +
      if rightBitmapIdx ≠ d.bitmapSize then countOnes (d.bitmap rightBitmapIdx &&& rightMask)
      else 0

/-! ## The iterator -/

/-- `Iterator`. `curIdx` is `none` at the end. -/
structure Iterator where
  curIdx : Option Nat
  curBitmapIdx : Nat
  curBitmapData : BitVec 64

/-- `operator++`. -/
def Iterator.next (it : Iterator) : Iterator :=
  match nextWord d.bitmap (d.bitmapSize - 1 - it.curBitmapIdx) it.curBitmapIdx
      it.curBitmapData with
  | none => ⟨none, d.bitmapSize, 0#64⟩
  | some (idx, data) =>
    ⟨some (getOffset idx (extractRightmostOne data)), idx, removeRightmostOne data⟩

/-- The word of `pos` without the bits below it. -/
def wordFrom (pos : Nat) : BitVec 64 :=
  d.bitmap (pos / 64) &&& ~~~(1#64 <<< (pos % 64) - 1#64)

/-- The iterator from `idx` on: `initialize`. -/
def iteratorAt (idx : Nat) : Iterator :=
  Iterator.next d ⟨some idx, idx / 64, d.wordFrom idx⟩

/-- What a loop `it.cur_idx_ < right && !it.is_end()` goes through. -/
def valuesFrom (right : Nat) : Nat → Iterator → List (K × P)
  | 0, _ => []
  | n + 1, it =>
    match it.curIdx with
    | none => []
    | some i =>
      if i < right then (d.keySlots i, d.payloadSlots i) :: valuesFrom right n (it.next d)
      else []

/-- The entries between two positions, as the iterator finds them. -/
def values (left right : Nat) : List (K × P) :=
  valuesFrom d right (right - left) (d.iteratorAt left)

/-! ## Lookup -/

/-- `predict_position`. -/
def predictPosition (key : K) : Nat :=
  (max (min (d.predict key) ((d.dataCapacity : Int) - 1)) 0).toNat

def exponentialSearchUpperBound (m : Nat) (key : K) : Nat :=
  expSearch (above d.keySlots key) d.dataCapacity m

def exponentialSearchLowerBound (m : Nat) (key : K) : Nat :=
  expSearch (atLeast d.keySlots key) d.dataCapacity m

def upperBound (key : K) : Nat := d.exponentialSearchUpperBound (d.predictPosition key) key

def lowerBound (key : K) : Nat := d.exponentialSearchLowerBound (d.predictPosition key) key

/-- `find_key`, `none` for `-1`. -/
def findKey (key : K) : Option Nat :=
  let ub := d.exponentialSearchUpperBound (d.predictPosition key) key
  if ub = 0 then none
  else if d.keySlots (ub - 1) = key then some (ub - 1)
  else none

/-- `get_next_filled_position`. -/
def getNextFilledPosition (pos : Nat) (exclusive : Bool) : Nat :=
  let pos := if exclusive then pos + 1 else pos
  if exclusive = true ∧ pos = d.dataCapacity then d.dataCapacity
  else
    match nextWord d.bitmap (d.bitmapSize - 1 - pos / 64) (pos / 64) (d.wordFrom pos) with
    | none => d.dataCapacity
    | some (idx, data) => getOffset idx (extractRightmostOne data)

/-- `find_insert_position`: where the key goes, and its upper bound. -/
def findInsertPosition (key : K) : Nat × Nat :=
  let predictedPos := d.predictPosition key
  let pos := d.exponentialSearchUpperBound predictedPos key
  if predictedPos ≤ pos ∨ d.checkExists pos = true then (pos, pos)
  else (min predictedPos (d.getNextFilledPosition pos true - 1), pos)

/-! ## The closest gap -/

/-- The last gap of word `i`, which is not full. -/
def leftGapPos (i : Nat) : Nat := 64 * (i + 1) - (~~~d.bitmap i).clz.toNat - 1

/-- The first gap of word `i`, which is not full. -/
def rightGapPos (i : Nat) : Nat := 64 * i + (~~~d.bitmap i).ctz.toNat

/-- The closer one of two gaps. The right one may lie behind the end. -/
def closerGap (pos left right : Nat) : Nat :=
  if pos - left ≤ right - pos ∨ d.dataCapacity ≤ right then left else right

/-- The blocks of one side, when the other side has come to its end. -/
def scanLeft : Nat → Option Nat
  | 0 => none
  | i + 1 => if d.bitmap i ≠ BitVec.allOnes 64 then some (d.leftGapPos i) else scanLeft i

def scanRight : Nat → Nat → Option Nat
  | 0, _ => none
  | n + 1, i =>
    if d.bitmap i ≠ BitVec.allOnes 64 then
      if d.dataCapacity ≤ d.rightGapPos i then none else some (d.rightGapPos i)
    else scanRight n (i + 1)

/-- The blocks on both sides, a distance of `distance` blocks away and further. `n` rounds are
left. -/
def scanBoth (pos : Nat) : Nat → Nat → Option Nat
  | 0, distance =>
    let bitmapPos := pos / 64
    let rightBitmapPos := (d.dataCapacity - 1) / 64
    if bitmapPos > rightBitmapPos - bitmapPos then d.scanLeft (bitmapPos + 1 - distance)
    else d.scanRight (rightBitmapPos + 1 - (bitmapPos + distance)) (bitmapPos + distance)
  | n + 1, distance =>
    let bitmapPos := pos / 64
    let bitPos := pos % 64
    let left := bitmapPos - distance
    let right := bitmapPos + distance
    if d.bitmap left ≠ BitVec.allOnes 64 ∧ d.bitmap right ≠ BitVec.allOnes 64 then
      some (d.closerGap pos (d.leftGapPos left) (d.rightGapPos right))
    else if d.bitmap left ≠ BitVec.allOnes 64 then
      if bitPos > 32 ∧ right + 1 < d.bitmapSize ∧ d.bitmap (right + 1) ≠ BitVec.allOnes 64 then
        some (d.closerGap pos (d.leftGapPos left) (d.rightGapPos (right + 1)))
      else some (d.leftGapPos left)
    else if d.bitmap right ≠ BitVec.allOnes 64 ∧ d.rightGapPos right < d.dataCapacity then
      if bitPos < 32 ∧ left > 0 ∧ d.bitmap (left - 1) ≠ BitVec.allOnes 64 then
        some (d.closerGap pos (d.leftGapPos (left - 1)) (d.rightGapPos right))
      else some (d.rightGapPos right)
    else scanBoth pos n (distance + 1)

/-- The block of `pos`, which has a gap. -/
def scanBlock (pos : Nat) : Option Nat :=
  let bitmapPos := pos / 64
  let bitPos := pos % 64
  let bitmapData := d.bitmap bitmapPos
  let bitmapRightGaps := ~~~(bitmapData ||| (1#64 <<< bitPos - 1#64))
  let closestRightGapDistance :=
    if bitmapRightGaps ≠ 0#64 then bitmapRightGaps.ctz.toNat - bitPos
    else if bitmapPos + 1 < d.bitmapSize then
      64 + (~~~d.bitmap (bitmapPos + 1)).ctz.toNat - bitPos
    else 64
  let bitmapLeftGaps := ~~~bitmapData &&& (1#64 <<< bitPos - 1#64)
  let closestLeftGapDistance :=
    if bitmapLeftGaps ≠ 0#64 then bitPos - (63 - bitmapLeftGaps.clz.toNat)
    else if 0 < bitmapPos then bitPos + (~~~d.bitmap (bitmapPos - 1)).clz.toNat + 1
    else 64
  if closestRightGapDistance < closestLeftGapDistance ∧
      pos + closestRightGapDistance < d.dataCapacity then
    some (pos + closestRightGapDistance)
  else if closestLeftGapDistance ≤ pos then some (pos - closestLeftGapDistance)
  else none

/-- `closest_gap` with `ALEX_USE_LZCNT`, `none` for a negative position. -/
def closestGap (pos : Nat) : Option Nat :=
  let pos := min pos (d.dataCapacity - 1)
  let bitmapPos := pos / 64
  let rightBitmapPos := (d.dataCapacity - 1) / 64
  if d.bitmap bitmapPos = BitVec.allOnes 64 ∨ bitmapPos = d.bitmapSize - 1 ∧
      (d.bitmap bitmapPos).cpop.toNat = d.dataCapacity - 64 * (d.bitmapSize - 1) then
    d.scanBoth pos (min bitmapPos (rightBitmapPos - bitmapPos)) 1
  else d.scanBlock pos

/-- The loop of the slower version, position by position. -/
def slowBoth (pos : Nat) : Nat → Nat → Option Nat
  | 0, distance =>
    if pos > d.dataCapacity - pos - 1 then
      scanDown (fun i => !d.checkExists i) (pos + 1 - distance)
    else scanUp (fun i => !d.checkExists i) (d.dataCapacity - (pos + distance)) (pos + distance)
  | n + 1, distance =>
    if d.checkExists (pos - distance) = false then some (pos - distance)
    else if d.checkExists (pos + distance) = false then some (pos + distance)
    else slowBoth pos n (distance + 1)

/-- `closest_gap` without `ALEX_USE_LZCNT`, which "does not return pos if pos is a gap". -/
def closestGapSlow (pos : Nat) : Option Nat :=
  d.slowBoth pos (min pos (d.dataCapacity - pos - 1)) 1

/-! ## Building a node -/

/-- What a node is built with: the model and the results of the other computations in floating
point, and what the new arrays hold before they are written. -/
structure Build (K P : Type) where
  predict : K → Int
  /-- `static_cast<int>(num_keys / density)`. -/
  scaled : Nat
  /-- `data_capacity_ * kMaxDensity_`, rounded up. -/
  mostly : Nat
  /-- `data_capacity_ * kMinDensity_`, rounded up. -/
  least : Nat
  keySlots : Nat → K
  payloadSlots : Nat → P
  /-- What lies behind the words of the bitmap. -/
  behind : Nat → BitVec 64

/-- The arrays of a node that is being filled. `next` is `last_position + 1`. -/
structure Slots (K P : Type) where
  keySlots : Nat → K
  payloadSlots : Nat → P
  bitmap : Nat → BitVec 64
  next : Nat

/-- Store an entry and give its key to the gaps before it. -/
def Slots.put (s : Slots K P) (position : Nat) (x : K × P) : Slots K P :=
  { keySlots := setLoc (fillFrom s.keySlots s.next x.1 (position - s.next)) position x.1
    payloadSlots := setLoc s.payloadSlots position x.2
    bitmap := setBit s.bitmap position
    next := position + 1 }

/-- The model-based inserts: each entry goes where the model says, or right behind the one
before, until what remains fills the rest of the store contiguously. -/
def place (predict : K → Int) (capacity : Nat) : List (K × P) → Nat → Slots K P → Slots K P
  | [], _, s => s
  | x :: rest, keysRemaining, s =>
    let position := max (predict x.1).toNat s.next
    if capacity < position + keysRemaining then
      rest.foldl (fun s y => s.put s.next y) (s.put (capacity - keysRemaining) x)
    else place predict capacity rest (keysRemaining - 1) (s.put position x)

/-- `data_capacity_` of a new node. -/
def Build.capacity (b : Build K P) (numKeys : Nat) : Nat := max b.scaled (numKeys + 1)

def bitmapWords (capacity : Nat) : Nat := (capacity + 63) / 64

/-- The new arrays: `initialize`. -/
def Slots.blank (b : Build K P) (numKeys : Nat) : Slots K P :=
  { keySlots := b.keySlots
    payloadSlots := b.payloadSlots
    bitmap := fun i => if i < bitmapWords (b.capacity numKeys) then 0#64 else b.behind i
    next := 0 }

/-- The node, with `kEndSentinel_` behind the last entry. -/
def Slots.node (s : Slots K P) (b : Build K P) (numKeys : Nat) : DataNode K P :=
  let capacity := b.capacity numKeys
  { keySlots := fillFrom s.keySlots s.next ⊤ (capacity - s.next)
    payloadSlots := s.payloadSlots
    dataCapacity := capacity
    numKeys := numKeys
    bitmap := s.bitmap
    bitmapSize := bitmapWords capacity
    expansionThreshold :=
      if numKeys = 0 then capacity else min (max b.mostly (numKeys + 1)) capacity
    contractionThreshold := if numKeys = 0 then 0 else b.least
    predict := b.predict }

/-- A node with the given entries. -/
def build (b : Build K P) (values : List (K × P)) (numKeys : Nat) : DataNode K P :=
  let values := if numKeys = 0 then [] else values
  (place b.predict (b.capacity numKeys) values numKeys (Slots.blank b numKeys)).node b numKeys

/-- `bulk_load`. -/
def bulkLoad (b : Build K P) (values : List (K × P)) : DataNode K P :=
  build b values values.length

/-- `bulk_load_from_existing`, for the entries between `left` and `right`. The number of entries
may have been computed before. -/
def bulkLoadFromExisting (b : Build K P) (node : DataNode K P) (left right : Nat)
    (precomputedNumActualKeys : Option Nat) : DataNode K P :=
  let values := node.values left right
  build b values (precomputedNumActualKeys.getD values.length)

/-- `resize`. -/
def resize (b : Build K P) : DataNode K P :=
  if d.numKeys = 0 then d else build b (d.values 0 d.dataCapacity) d.numKeys

/-! ## Insert -/

/-- Write `key` to the gaps that lead up to a position. -/
def overwriteGaps (key : K) : Nat → DataNode K P → DataNode K P
  | 0, d => d
  | pos + 1, d =>
    if d.checkExists pos = true then d
    else overwriteGaps key pos { d with keySlots := setLoc d.keySlots pos key }

def insertElementAt (key : K) (payload : P) (pos : Nat) : DataNode K P :=
  overwriteGaps key pos
    { d with
      keySlots := setLoc d.keySlots pos key
      payloadSlots := setLoc d.payloadSlots pos payload
      bitmap := setBit d.bitmap pos }

/-- `for (i = pos + n; i > pos; i--) a[i] = a[i - 1]`. -/
def shiftUp {α : Type} (a : Nat → α) (pos : Nat) : Nat → Nat → α
  | 0 => a
  | n + 1 => shiftUp (setLoc a (pos + n + 1) (a (pos + n))) pos n

/-- `for (i = gap; i < gap + n; i++) a[i] = a[i + 1]`. -/
def shiftDown {α : Type} (a : Nat → α) : Nat → Nat → Nat → α
  | _, 0 => a
  | gap, n + 1 => shiftDown (setLoc a gap (a (gap + 1))) (gap + 1) n

/-- `insert_using_shifts`, with the position of the insertion. `none`: there is no gap. -/
def insertUsingShifts (key : K) (payload : P) (pos : Nat) : Option (DataNode K P × Nat) :=
  match d.closestGap pos with
  | none => none
  | some gapPos =>
    let d := { d with bitmap := setBit d.bitmap gapPos }
    if gapPos ≥ pos then
      some (insertElementAt { d with
        keySlots := shiftUp d.keySlots pos (gapPos - pos)
        payloadSlots := shiftUp d.payloadSlots pos (gapPos - pos) } key payload pos, pos)
    else
      some (insertElementAt { d with
        keySlots := shiftDown d.keySlots gapPos (pos - 1 - gapPos)
        payloadSlots := shiftDown d.payloadSlots gapPos (pos - 1 - gapPos) } key payload (pos - 1),
        pos - 1)

/-- The answers of the cost model, asked by `insert`. -/
structure Costs where
  /-- `num_inserts_ % 64 == 0`. -/
  periodic : Bool
  catastrophic : Bool
  deviation : Bool
  /-- `num_keys_ > max_slots_ * kMinDensity_`. -/
  full : Bool

/-- Why `insert` does nothing, if it does: the node is then split by the caller. -/
def Costs.fail (c : Costs) : Option Nat :=
  if c.periodic = true ∧ c.catastrophic = true then some 2
  else if d.numKeys < d.expansionThreshold then none
  else if c.deviation = true then some 1
  else if c.catastrophic = true then some 2
  else if c.full = true then some 3
  else none

/-- `insert` of a node that has room. -/
def insertRoom (key : K) (payload : P) : Option (DataNode K P × Nat) :=
  let insertionPosition := (d.findInsertPosition key).1
  let inserted :=
    if insertionPosition < d.dataCapacity ∧ d.checkExists insertionPosition = false then
      some (d.insertElementAt key payload insertionPosition, insertionPosition)
    else d.insertUsingShifts key payload insertionPosition
  inserted.map fun r => ({ r.1 with numKeys := r.1.numKeys + 1 }, r.2)

/-- `insert`: a fail flag, or the position of the insertion. -/
def insert (c : Costs) (b : Build K P) (key : K) (payload : P) :
    Option (DataNode K P × Except Nat Nat) :=
  match c.fail d with
  | some flag => some (d, .error flag)
  | none =>
    let room := if d.numKeys < d.expansionThreshold then d else d.resize b
    (room.insertRoom key payload).map fun r => (r.1, .ok r.2)

/-! ## Erase -/

/-- Contract the node if it has become too sparse. -/
def contract (b : Build K P) : DataNode K P :=
  if d.numKeys < d.contractionThreshold then d.resize b else d

/-- Turn positions into gaps, from the one before `pos` down, while their keys pass the test.
Counts the entries among them. -/
def eraseDown (test : K → Bool) (nextKey : K) : Nat → DataNode K P → DataNode K P × Nat
  | 0, d => (d, 0)
  | pos + 1, d =>
    if test (d.keySlots pos) = true then
      let exist := if d.checkExists pos = true then 1 else 0
      let r := eraseDown test nextKey pos
        { d with keySlots := setLoc d.keySlots pos nextKey, bitmap := unsetBit d.bitmap pos }
      (r.1, r.2 + exist)
    else (d, 0)

/-- Erase what passes the test before `pos`. -/
def eraseBefore (b : Build K P) (test : K → Bool) (pos : Nat) : DataNode K P × Nat :=
  let nextKey := if pos = d.dataCapacity then ⊤ else d.keySlots pos
  let r := eraseDown test nextKey pos d
  (contract { r.1 with numKeys := r.1.numKeys - r.2 } b, r.2)

/-- `erase`. -/
def erase (b : Build K P) (key : K) : DataNode K P × Nat :=
  let pos := d.upperBound key
  if pos = 0 ∨ d.keySlots (pos - 1) ≠ key then (d, 0)
  else d.eraseBefore b (fun k => decide (k = key)) pos

/-- `erase_range`. -/
def eraseRange (b : Build K P) (startKey endKey : K) (endKeyInclusive : Bool) :
    DataNode K P × Nat :=
  let pos := if endKeyInclusive then d.upperBound endKey else d.lowerBound endKey
  if pos = 0 then (d, 0) else d.eraseBefore b (fun k => decide (startKey ≤ k)) pos

/-! ## The check of a node -/

/-- `validate_structure`, but for the cost. -/
def validateStructure : Bool :=
  (List.range (d.dataCapacity - 1)).all (fun i =>
    if d.keySlots (i + 1) < d.keySlots i then false
    else if d.keySlots i < d.keySlots (i + 1) ∧ d.checkExists i = false then false
    else true) &&
  !(decide (d.keySlots (d.dataCapacity - 1) = ⊤) && d.checkExists (d.dataCapacity - 1)) &&
  !(decide (d.keySlots (d.dataCapacity - 1) ≠ ⊤) && !d.checkExists (d.dataCapacity - 1)) &&
  decide (((List.range' 0 d.bitmapSize).map fun i => countOnes (d.bitmap i)).sum = d.numKeys)

end DataNode

end Epli.Alex
