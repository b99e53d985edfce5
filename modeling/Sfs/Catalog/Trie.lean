import Sfs.Catalog.NodeStore

/-!
# The catalog trie

The operations of the trie on its node blocks. An update copies the nodes on the path of its key
and returns the address of a new root; each of the old ones is given back as soon as the frame
that copied it is done.
-/

namespace Sfs.Catalog

open Sfs.Lib Sfs.Container NodeM

def TRIE_MAX_DEPTH : Nat := MAX_KEY_LEN + 64

def TRIE_NODE_BUDGET : Nat := 2 ^ 20

/-- One child pointer. -/
def oneSlot (b : UInt8) (addr : Nat) : UInt8 → Nat := Function.update (fun _ => 0) b addr

/-- The bytes with a child. -/
def usedSlots (slots : UInt8 → Nat) : List UInt8 := allBytes.filter fun b => slots b ≠ 0

/-- The number of bytes at the start that agree. -/
def shared : Bytes → Bytes → Nat
  | o :: os, n :: ns => if o = n then shared os ns + 1 else 0
  | _, _ => 0

inductive RemoveResult where
  | absent
  | replaced (addr : Nat)
  | pruned
  deriving DecidableEq, Repr

/-- The work of a scan that is left: a node to enter with its depth and the byte that leads to it,
or the end of a subtree. -/
inductive Work where
  | enter (addr depth : Nat) (byte : Option UInt8)
  | pop

def checkBounds (key val : Bytes) : Result Unit :=
  if MAX_KEY_LEN < key.length then
    .error (.integrity ("trie key too long: " ++ toString key.length ++ " > " ++ toString MAX_KEY_LEN))
  else if MAX_VAL_LEN < val.length then
    .error (.integrity
      ("trie value too long: " ++ toString val.length ++ " > " ++ toString MAX_VAL_LEN))
  else .ok ()

namespace Trie

variable (crc : Bytes → UInt32) (crypto : NodeCrypto)

/-! ## Looking up -/

def getAt (d : Disk) (key : Bytes) : Bytes → Nat → Result (Option Bytes)
  | rest, addr => do
    match ← Node.read crc crypto d addr with
    | .leaf k v => return if k = key then some v else none
    | .internal term slots =>
      match rest with
      | [] => return term
      | b :: rest => if slots b = 0 then return none else getAt d key rest (slots b)

def get (d : Disk) (root : Nat) (key : Bytes) : Result (Option Bytes) :=
  getAt crc crypto d key key root

section

variable (io : Io)

/-! ## Inserting -/

/-- Nodes without a value around `addr`, the innermost first. -/
def wrap : List UInt8 → Nat → NodeM Nat
  | [], addr => return addr
  | b :: bs, addr => do wrap bs (← allocNode crc crypto io (.internal none (oneSlot b addr)))

def branchLeaf (oldKey oldVal newKey newVal : Bytes) (depth : Nat) : NodeM Nat := do
  let d := depth + shared (oldKey.drop depth) (newKey.drop depth)
  if d = min oldKey.length newKey.length then
    let (shortKey, shortVal, longKey, longVal) :=
      if oldKey.length < newKey.length then (oldKey, oldVal, newKey, newVal)
        else (newKey, newVal, oldKey, oldVal)
    let longLeaf ← allocNode crc crypto io (.leaf longKey longVal)
    let addr ← allocNode crc crypto io
      (.internal (some shortVal) (oneSlot (longKey.getD d 0) longLeaf))
    wrap crc crypto io (slice depth (d - depth) shortKey).reverse addr
  else
    let oldLeaf ← allocNode crc crypto io (.leaf oldKey oldVal)
    let newLeaf ← allocNode crc crypto io (.leaf newKey newVal)
    let addr ← allocNode crc crypto io
      (.internal none (Function.update (oneSlot (oldKey.getD d 0) oldLeaf) (newKey.getD d 0) newLeaf))
    wrap crc crypto io (slice depth (d - depth) oldKey).reverse addr

/-- A frame that replaces the node at `addr` gives it back when it is done. -/
def superseding {α : Type} (addr : Nat) (frame : NodeM α) : NodeM α := do
  let r ← frame
  freeNodeCow addr
  return r

/-- The node with the child that is made for `b`. -/
def repoint (term : Option Bytes) (slots : UInt8 → Nat) (b : UInt8) (child : NodeM Nat) :
    NodeM Nat := do
  let newChild ← child
  allocNode crc crypto io (.internal term (Function.update slots b newChild))

def putAt (key val : Bytes) : Nat → Bytes → Nat → NodeM Nat
  | depth, rest, addr => superseding addr do
    match ← readNode crc crypto io addr with
    | .leaf k v =>
      if k = key then allocNode crc crypto io (.leaf key val)
      else branchLeaf crc crypto io k v key val depth
    | .internal term slots =>
      match rest with
      | [] => allocNode crc crypto io (.internal (some val) slots)
      | b :: rest =>
        repoint crc crypto io term slots b
          (if slots b = 0 then allocNode crc crypto io (.leaf key val)
            else putAt key val (depth + 1) rest (slots b))

/-- `put`: the new root. -/
def put (root : Nat) (key val : Bytes) : NodeM Nat := do
  ofExcept (checkBounds key val)
  putAt crc crypto io key val 0 key root

/-! ## Removing -/

def rebuildAfterRemove (term : Option Bytes) (slots : UInt8 → Nat) : NodeM RemoveResult :=
  if term.isNone ∧ usedSlots slots = [] then return .pruned
  else
    match term, usedSlots slots with
    | none, [idx] => do
      match ← readNode crc crypto io (slots idx) with
      | .leaf k v => return .replaced (← allocNode crc crypto io (.leaf k v))
      | .internal _ _ => return .replaced (← allocNode crc crypto io (.internal term slots))
    | _, _ => do return .replaced (← allocNode crc crypto io (.internal term slots))

/-- What a removal below the child at `b` makes of the node at `addr`. -/
def afterChild (term : Option Bytes) (slots : UInt8 → Nat) (b : UInt8) (addr : Nat) :
    RemoveResult → NodeM RemoveResult
  | .absent => return .absent
  | .replaced newChild =>
    superseding addr do
      return .replaced
        (← allocNode crc crypto io (.internal term (Function.update slots b newChild)))
  | .pruned => superseding addr (rebuildAfterRemove crc crypto io term (Function.update slots b 0))

def removeAt (key : Bytes) : Bytes → Nat → NodeM RemoveResult
  | rest, addr => do
    match ← readNode crc crypto io addr with
    | .leaf k _ => if k = key then superseding addr (return .pruned) else return .absent
    | .internal term slots =>
      match rest with
      | [] =>
        if term.isNone then return .absent
          else superseding addr (rebuildAfterRemove crc crypto io none slots)
      | b :: rest =>
        if slots b = 0 then return .absent
        else removeAt key rest (slots b) >>= afterChild crc crypto io term slots b addr

/-- `remove`: the root afterwards, and whether the key was there. -/
def remove (root : Nat) (key : Bytes) : NodeM (Nat × Bool) := do
  match ← removeAt crc crypto io key key root with
  | .absent => return (root, false)
  | .replaced newAddr => return (newAddr, true)
  | .pruned => return (← allocNode crc crypto io (.internal none fun _ => 0), true)

/-- `create`: an empty root. -/
def create : NodeM Nat := allocNode crc crypto io (.internal none fun _ => 0)

end

/-! ## Scanning -/

/-- The next node to enter: ends of subtrees shorten the key. -/
def nextEnter : List Work → Bytes → Option ((Nat × Nat × Option UInt8) × List Work × Bytes)
  | [], _ => none
  | .pop :: stack, keySoFar => nextEnter stack keySoFar.dropLast
  | .enter addr depth byte :: stack, keySoFar => some ((addr, depth, byte), stack, keySoFar)

def budgetExceeded : Error :=
  .integrity ("trie visit budget exceeded (" ++ toString TRIE_NODE_BUDGET ++
    "): cyclic or oversized node graph")

def tooDeep : Error :=
  .integrity ("trie depth exceeds " ++ toString TRIE_MAX_DEPTH ++ ": crafted deep chain")

/-- The children that a scan enters below a node. -/
def kidsAt (pfx : Bytes) (depth : Nat) (slots : UInt8 → Nat) : List (UInt8 × Nat) :=
  if depth < pfx.length then
    let b := pfx.getD depth 0
    if slots b ≠ 0 then [(b, slots b)] else []
  else (usedSlots slots).map fun b => (b, slots b)

/-- `scan_at` with `left` of the budget. -/
def scanLoop (d : Disk) (pfx : Bytes) :
    Nat → List Work → Bytes → List (Bytes × Bytes) → Result (List (Bytes × Bytes))
  | left, stack, keySoFar, out =>
    match nextEnter stack keySoFar with
    | none => .ok out
    | some ((addr, depth, byte), stack, keySoFar) =>
      match left with
      | 0 => .error budgetExceeded
      | left + 1 =>
        if TRIE_MAX_DEPTH < depth then .error tooDeep
        else do
          let keySoFar := keySoFar ++ byte.toList
          let stack := byte.toList.map (fun _ => Work.pop) ++ stack
          match ← Node.read crc crypto d addr with
          | .leaf k v =>
            scanLoop d pfx left stack keySoFar (if pfx <+: k then out ++ [(k, v)] else out)
          | .internal term slots =>
            let out := if pfx.length ≤ depth then out ++ term.toList.map (fun v => (keySoFar, v))
              else out
            let kids := (kidsAt pfx depth slots).map fun kid =>
              Work.enter kid.2 (depth + 1) (some kid.1)
            scanLoop d pfx left (kids ++ stack) keySoFar out

def scanPrefix (d : Disk) (root : Nat) (pfx : Bytes) : Result (List (Bytes × Bytes)) :=
  scanLoop crc crypto d pfx TRIE_NODE_BUDGET [.enter root 0 none] [] []

end Trie

end Sfs.Catalog
