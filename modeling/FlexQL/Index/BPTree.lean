import FlexQL.Cache.CacheManager
import FlexQL.Lib.Runs

/-!
# The B+ tree index

`BPTree` keeps `uint64_t` keys and row ids in pages of a mapped file. A page that belongs to a tree
is only ever used through the `BPTNode` laid over it, so the file is modelled as one node for each
page offset. Every access to one of the three arrays of a node checks its index; an index out of
range is a fault.
-/

namespace FlexQL

/-- `BPT_ORDER`, the length of the `keys` and `values` arrays. -/
def bptOrder : ℕ := 250

inductive BPTNodeType
  | leaf
  | internal
  deriving DecidableEq, Repr

structure BPTNode where
  type : BPTNodeType
  numKeys : ℕ
  /-- `next_leaf`, or `noPage` if there is none. -/
  nextLeaf : ℕ
  /-- `keys[BPT_ORDER]`. -/
  keys : ℕ → ℕ
  /-- `values[BPT_ORDER]`, the row ids of a leaf. -/
  values : ℕ → ℕ
  /-- `children[BPT_ORDER + 1]`, the pages below an internal node. It shares its bytes with
  `values`; which of the two is in use depends on the type. -/
  children : ℕ → ℕ

namespace BPTNode

/-- `memset(node, 0, 4096)` and the header of a new node. -/
def init (type : BPTNodeType) : BPTNode where
  type := type
  numKeys := 0
  nextLeaf := noPage
  keys := fun _ => 0
  values := fun _ => 0
  children := match type with
    | .leaf => fun _ => 0
    | .internal => fun _ => noPage

def key (n : BPTNode) (i : ℕ) : Except Fault ℕ :=
  if i < bptOrder then .ok (n.keys i) else .error .outOfBounds

def value (n : BPTNode) (i : ℕ) : Except Fault ℕ :=
  if i < bptOrder then .ok (n.values i) else .error .outOfBounds

def child (n : BPTNode) (i : ℕ) : Except Fault ℕ :=
  if i < bptOrder + 1 then .ok (n.children i) else .error .outOfBounds

def setKey (n : BPTNode) (i k : ℕ) : Except Fault BPTNode :=
  if i < bptOrder then .ok { n with keys := Function.update n.keys i k }
  else .error .outOfBounds

def setValue (n : BPTNode) (i v : ℕ) : Except Fault BPTNode :=
  if i < bptOrder then .ok { n with values := Function.update n.values i v }
  else .error .outOfBounds

def setChild (n : BPTNode) (i pid : ℕ) : Except Fault BPTNode :=
  if i < bptOrder + 1 then .ok { n with children := Function.update n.children i pid }
  else .error .outOfBounds

/-- `while (i < num_keys && key >= keys[i]) i++`, with `fuel = num_keys - i`. -/
def childSlot (n : BPTNode) (key : ℕ) : ℕ → ℕ → Except Fault ℕ
  | 0, i => .ok i
  | fuel + 1, i => do
    if key ≥ (← n.key i) then n.childSlot key fuel (i + 1) else return i

/-- The search for a key among the first `num_keys` keys of a leaf, with `fuel = num_keys - i`. -/
def lookup (n : BPTNode) (key : ℕ) : ℕ → ℕ → Except Fault (Option ℕ)
  | 0, _ => .ok none
  | fuel + 1, i => do
    if (← n.key i) = key then return some (← n.value i) else n.lookup key fuel (i + 1)

/-- `for (i = 0; i <= num_keys; i++) if (children[i] == left_pid)`, with
`fuel = num_keys + 1 - i`. -/
def hasChild (n : BPTNode) (pid : ℕ) : ℕ → ℕ → Except Fault Bool
  | 0, _ => .ok false
  | fuel + 1, i => do
    if (← n.child i) = pid then return true else n.hasChild pid fuel (i + 1)

/-- The loop that moves the larger keys of a leaf and their values one slot to the right. It
returns the free slot. -/
def shiftValues (n : BPTNode) (key : ℕ) : ℕ → Except Fault (BPTNode × ℕ)
  | 0 => .ok (n, 0)
  | i + 1 => do
    let k ← n.key i
    if k > key then
      let n ← n.setKey (i + 1) k
      let n ← n.setValue (i + 1) (← n.value i)
      n.shiftValues key i
    else return (n, i + 1)

/-- The same loop for an internal node, where the child behind a key moves along with it. -/
def shiftChildren (n : BPTNode) (key : ℕ) : ℕ → Except Fault (BPTNode × ℕ)
  | 0 => .ok (n, 0)
  | i + 1 => do
    let k ← n.key i
    if k > key then
      let n ← n.setKey (i + 1) k
      let n ← n.setChild (i + 2) (← n.child (i + 1))
      n.shiftChildren key i
    else return (n, i + 1)

/-- The insertion of a pair into a leaf that is not full. -/
def insertPair (n : BPTNode) (key val : ℕ) : Except Fault BPTNode := do
  let (n, i) ← n.shiftValues key n.numKeys
  let n ← n.setKey i key
  let n ← n.setValue i val
  return { n with numKeys := n.numKeys + 1 }

/-- The insertion of a separator and the child behind it into an internal node that is not
full. -/
def insertChild (n : BPTNode) (key pid : ℕ) : Except Fault BPTNode := do
  let (n, i) ← n.shiftChildren key n.numKeys
  let n ← n.setKey i key
  let n ← n.setChild (i + 1) pid
  return { n with numKeys := n.numKeys + 1 }

/-- Append pairs to the entries of a leaf, counting them in `num_keys`. -/
def fill (n : BPTNode) : List (ℕ × ℕ) → Except Fault BPTNode
  | [] => .ok n
  | p :: ps => do
    let n ← n.setKey n.numKeys p.1
    let n ← n.setValue n.numKeys p.2
    fill { n with numKeys := n.numKeys + 1 } ps

/-- `for (j = 0; j < BPT_ORDER; j++) temp.push_back({keys[j], values[j]})`. -/
def collect (n : BPTNode) : List (ℕ × ℕ) :=
  (List.range bptOrder).map fun j => (n.keys j, n.values j)

end BPTNode

/-- `operator<=` on `std::pair<uint64_t, uint64_t>`. -/
def pairLe (p q : ℕ × ℕ) : Bool := p.1 < q.1 || (p.1 == q.1 && p.2 ≤ q.2)

structure BPTree where
  cacheManager : CacheManager
  rootPid : ℕ
  /-- The nodes in the mapped file, by page offset. -/
  file : ℕ → BPTNode

namespace BPTree

/-- `cache_manager_.get_page(pid)`. -/
def getPage (t : BPTree) (pid : ℕ) : Option ℕ × BPTree :=
  ((t.cacheManager.getPage pid).1, { t with cacheManager := (t.cacheManager.getPage pid).2 })

/-- `cache_manager_.mark_dirty(pid)`. -/
def markDirty (t : BPTree) (pid : ℕ) : BPTree :=
  { t with cacheManager := t.cacheManager.markDirty pid }

/-- Change the node at a page offset. -/
def setNode (t : BPTree) (off : ℕ) (n : BPTNode) : BPTree :=
  { t with file := Function.update t.file off n }

def createNode (t : BPTree) (type : BPTNodeType) : Except Fault (ℕ × BPTree) := do
  let (pid, cm) := t.cacheManager.allocatePage
  let (p, t) := { t with cacheManager := cm }.getPage pid
  match p with
  | none => return (noPage, t)
  | some off =>
    let off ← mapped (some off)
    return (pid, (t.setNode off (.init type)).markDirty pid)

/-- The constructor, on a file with the given content. -/
def init (file : ℕ → BPTNode) : Except Fault BPTree := do
  let t : BPTree := ⟨.init 256, noPage, file⟩
  if t.cacheManager.numPages = 0 then
    let (pid, t) ← t.createNode .leaf
    return { t with rootPid := pid }
  else
    return { t with rootPid := 0 }

/-- The descent of `find_leaf`. As many steps as there are pages suffice for a descent that ends. -/
def findLeafFrom (t : BPTree) (key : ℕ) : ℕ → ℕ → Except Fault (ℕ × BPTree)
  | 0, _ => .error .endlessLoop
  | fuel + 1, curr => do
    let (p, t) := t.getPage curr
    match p with
    | none => return (noPage, t)
    | some off =>
      let n := t.file (← mapped (some off))
      if n.type = .leaf then return (curr, t)
      else t.findLeafFrom key fuel (← n.child (← n.childSlot key n.numKeys 0))

def findLeaf (t : BPTree) (key : ℕ) : Except Fault (ℕ × BPTree) :=
  t.findLeafFrom key (t.cacheManager.numPages + 1) t.rootPid

/-- The descent of `search`. -/
def searchFrom (t : BPTree) (key : ℕ) : ℕ → ℕ → Except Fault (Option ℕ × BPTree)
  | 0, _ => .error .endlessLoop
  | fuel + 1, curr => do
    let (p, t) := t.getPage curr
    match p with
    | none => return (none, t)
    | some off =>
      let n := t.file (← mapped (some off))
      if n.type = .leaf then return (← n.lookup key n.numKeys 0, t)
      else t.searchFrom key fuel (← n.child (← n.childSlot key n.numKeys 0))

/-- The result is the row id that `search` stores in its second argument, or `none` when it
returns false. -/
def search (t : BPTree) (key : ℕ) : Except Fault (Option ℕ × BPTree) :=
  t.searchFrom key (t.cacheManager.numPages + 1) t.rootPid

/-- The loop of `insert_into_parent` that looks for the node with `left_pid` among its children. -/
def findParentFrom (t : BPTree) (leftPid key : ℕ) : ℕ → ℕ → Except Fault (ℕ × BPTree)
  | 0, _ => .error .endlessLoop
  | fuel + 1, curr => do
    if curr = noPage then return (noPage, t)
    let (p, t) := t.getPage curr
    let n := t.file (← mapped p)
    if n.type = .leaf then return (noPage, t)
    if ← n.hasChild leftPid (n.numKeys + 1) 0 then return (curr, t)
    t.findParentFrom leftPid key fuel (← n.child (← n.childSlot key n.numKeys 0))

def insertIntoParent (t : BPTree) (leftPid key rightPid : ℕ) : Except Fault BPTree := do
  if leftPid = t.rootPid then
    let (newRootPid, t) ← t.createNode .internal
    let (rp, t) := t.getPage newRootPid
    let off ← mapped rp
    let n ← (t.file off).setKey 0 key
    let n ← n.setChild 0 leftPid
    let n ← n.setChild 1 rightPid
    let t := t.setNode off { n with numKeys := 1 }
    return { t with rootPid := newRootPid }.markDirty newRootPid
  let (parentPid, t) ← t.findParentFrom leftPid key (t.cacheManager.numPages + 1) t.rootPid
  if parentPid = noPage then return t
  let (pp, t) := t.getPage parentPid
  match pp with
  | none => return t
  | some off =>
    let off ← mapped (some off)
    let n := t.file off
    if n.numKeys < bptOrder then
      return (t.setNode off (← n.insertChild key rightPid)).markDirty parentPid
    else return t

/-- The middle part of `insert_into_leaf`: the entries of a full leaf and the new pair are sorted
and distributed over the leaf and a new one, which is linked behind it. -/
def splitLeaf (t : BPTree) (off newOff newPid key val : ℕ) : Except Fault BPTree := do
  let temp := ((t.file off).collect ++ [(key, val)]).mergeSort pairLe
  let splitIdx := temp.length / 2
  let n ← { t.file off with numKeys := 0 }.fill (temp.take splitIdx)
  let t := t.setNode off n
  let n ← { t.file newOff with numKeys := 0 }.fill (temp.drop splitIdx)
  let t := t.setNode newOff n
  let t := t.setNode newOff { t.file newOff with nextLeaf := (t.file off).nextLeaf }
  return t.setNode off { t.file off with nextLeaf := newPid }

def insertIntoLeaf (t : BPTree) (pid key val : ℕ) : Except Fault BPTree := do
  let (p, t) := t.getPage pid
  let off ← mapped p
  if (t.file off).numKeys < bptOrder then
    return (t.setNode off (← (t.file off).insertPair key val)).markDirty pid
  else
    let (newPid, t) ← t.createNode .leaf
    let (np, t) := t.getPage newPid
    let newOff ← mapped np
    let t ← t.splitLeaf off newOff newPid key val
    let t := (t.markDirty pid).markDirty newPid
    t.insertIntoParent pid (← (t.file newOff).key 0) newPid

def insert (t : BPTree) (key rowId : ℕ) : Except Fault BPTree := do
  let (pid, t) ← t.findLeaf key
  t.insertIntoLeaf pid key rowId

def clear (t : BPTree) : Except Fault BPTree := do
  let t := { t with cacheManager := t.cacheManager.clear.clearPager }
  let (pid, t) ← t.createNode .leaf
  return { t with rootPid := pid }

end BPTree

end FlexQL
