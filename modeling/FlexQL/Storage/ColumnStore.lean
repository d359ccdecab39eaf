import FlexQL.Cache.CacheManager
import FlexQL.Lib.ByteMemory
import FlexQL.Lib.Text

/-!
# Column stores

A `ColumnStore` appends items of a column to the pages of a mapped file, and a `ColumnReader`
fetches them by row number. The bytes of the file are passed in and out, since stores on one path
share them. Every page begins with a `ColumnPageHeader` of two 32-bit numbers.
-/

namespace FlexQL

open ByteMemory

/-- `sizeof(ColumnPageHeader)`. -/
def headerSize : ℕ := 8

/-- `num_items` of the page at an offset. -/
def numItems (mem : ByteMemory) (off : ℕ) : ℕ := decode (mem.read off 4)

/-- `item_size` of the page at an offset. -/
def itemSize (mem : ByteMemory) (off : ℕ) : ℕ := decode (mem.read (off + 4) 4)

/-- Read a block of the mapping. -/
def load (mem : ByteMemory) (addr len : ℕ) : Except Fault (List UInt8) :=
  if addr + len ≤ mapSize then .ok (mem.read addr len) else .error .unmapped

/-- `memcpy` into the mapping. -/
def store (mem : ByteMemory) (addr : ℕ) (block : List UInt8) : Except Fault ByteMemory :=
  if addr + block.length ≤ mapSize then .ok (mem.write addr block) else .error .unmapped

/-- How the items of a page are laid out: the `item_size` that a new page gets, the distance
between two items, and whether a page with another `item_size` counts as full. The distance is
never zero. -/
structure SlotFormat where
  kind : ℕ
  slotSize : ℕ
  checksKind : Bool
  deriving DecidableEq, Repr

namespace SlotFormat

/-- The format of `insert_fixed`. -/
def fixed (size : ℕ) : SlotFormat := ⟨size, size, false⟩

/-- The format of `insert_variable`. -/
def variableLength : SlotFormat := ⟨0, 128, true⟩

/-- `(4096 - sizeof(ColumnPageHeader)) / slot_size`. -/
def capacity (f : SlotFormat) : ℕ := (pageSize - headerSize) / f.slotSize

/-- The test for a page that takes no further item. -/
def full (f : SlotFormat) (mem : ByteMemory) (off : ℕ) : Bool :=
  (f.checksKind && itemSize mem off ≠ 0) || numItems mem off ≥ f.capacity

end SlotFormat

structure ColumnStore where
  filePath : Text
  /-- `cache_` in front of `pager_`. -/
  cache : CacheManager
  /-- `total_rows_`, a 64-bit counter. -/
  totalRows : ℕ
  /-- `active_page_`; `active_header_` is the same pointer. -/
  activePage : Option ℕ
  activePageIdx : ℕ

namespace ColumnStore

/-- `for (i = 0; i < np; i++) total += num_items`, over the headers of the pages. -/
def sumItems (cache : CacheManager) (mem : ByteMemory) :
    List ℕ → ℕ → Except Fault (ℕ × CacheManager)
  | [], total => .ok (total, cache)
  | i :: pages, total => do
    let (p, cache) := cache.getPage i
    let off ← mapped p
    sumItems cache mem pages (total + numItems mem off)

/-- The constructor, on a file with the given content. -/
def init (filePath : Text) (mem : ByteMemory) : Except Fault ColumnStore := do
  let cache := CacheManager.init 256
  let (total, cache) ← sumItems cache mem (List.range cache.numPages) 0
  return ⟨filePath, cache, total, none, noPage⟩

def getTotalRows (s : ColumnStore) : ℕ := s.totalRows

/-- The branches of `insert_fixed` and `insert_variable` that begin a new page. The page is cleared
and gets the `item_size` of the format; without a page nothing is written. -/
def newPage (s : ColumnStore) (mem : ByteMemory) (f : SlotFormat) :
    Except Fault (ColumnStore × ByteMemory) := do
  let (idx, cache) := s.cache.allocatePage
  let (p, cache) := cache.getPage idx
  let s := { s with cache := cache, activePage := p, activePageIdx := idx }
  match p with
  | none => return (s, mem)
  | some off =>
    let off ← mapped (some off)
    let mem := mem.write off (List.replicate pageSize 0)
    return (s, mem.write (off + 4) (encode 4 f.kind))

/-- The common end of `insert_fixed` and `insert_variable`. -/
def append (s : ColumnStore) (mem : ByteMemory) (f : SlotFormat) (block : List UInt8) :
    Except Fault (ColumnStore × ByteMemory) := do
  let off ← mapped s.activePage
  let mem ← store mem (off + headerSize + numItems mem off * f.slotSize % 2 ^ 32) block
  let mem := mem.write off (encode 4 (numItems mem off + 1))
  return ({ s with
    totalRows := (s.totalRows + 1) % 2 ^ 64
    cache := s.cache.markDirty s.activePageIdx }, mem)

/-- `!active_page_`, or the active page is full. -/
def noRoom (s : ColumnStore) (mem : ByteMemory) (f : SlotFormat) : Except Fault Bool :=
  match s.activePage with
  | none => .ok true
  | some off => do return f.full mem (← mapped (some off))

/-- `insert_fixed` and `insert_variable`, for the bytes that they copy into a slot. -/
def insertItem (s : ColumnStore) (mem : ByteMemory) (f : SlotFormat) (block : List UInt8) :
    Except Fault (ColumnStore × ByteMemory) := do
  if ← s.noRoom mem f then
    let last := s.cache.numPages
    if last > 0 then
      let (p, cache) := s.cache.getPage (last - 1)
      let off ← mapped p
      let s := { s with cache := cache, activePage := p }
      if f.full mem off then
        let (s, mem) ← s.newPage mem f
        if s.activePage = none then return (s, mem)
        s.append mem f block
      else
        let s := { s with activePageIdx := last - 1 }
        s.append mem f block
    else
      let (s, mem) ← s.newPage mem f
      s.append mem f block
  else
    s.append mem f block

/-- The item size is the number of bytes of the item, at least one. -/
def insertFixed (s : ColumnStore) (mem : ByteMemory) (data : List UInt8) :
    Except Fault (ColumnStore × ByteMemory) := s.insertItem mem (.fixed data.length) data

/-- A slot holds a 16-bit length and at most 126 bytes. -/
def insertVariable (s : ColumnStore) (mem : ByteMemory) (data : List UInt8) :
    Except Fault (ColumnStore × ByteMemory) :=
  s.insertItem mem .variableLength (encode 2 data.length ++ data.take 126)

def flush (s : ColumnStore) : ColumnStore := { s with cache := s.cache.flush }

def clear (s : ColumnStore) : ColumnStore :=
  { s with
    activePage := none
    activePageIdx := noPage
    totalRows := 0
    cache := s.cache.clear.clearPager }

end ColumnStore

/-! ## Reading

A `ColumnReader` is the cache of a store, with the pager behind it. A read moves pages inside the
cache, so it returns the cache. -/

namespace ColumnReader

def getTotalRows (cache : CacheManager) (mem : ByteMemory) : Except Fault (ℕ × CacheManager) :=
  ColumnStore.sumItems cache mem (List.range cache.numPages) 0

/-- `slot_size`. -/
def slotSize (fixedSize : ℕ) : ℕ := if fixedSize > 0 then fixedSize else 128

/-- The bytes that `read_at` copies out of the slot with the given number on a page. -/
def readSlot (mem : ByteMemory) (off localRid fixedSize : ℕ) : Except Fault (List UInt8) := do
  let slot := off + headerSize + localRid * slotSize fixedSize % 2 ^ 32
  if fixedSize > 0 then
    load mem slot fixedSize
  else
    let len := decode (← load mem slot 2)
    load mem (slot + 2) (if len > 126 then 126 else len)

/-- The direct computation of the page. -/
def fastPath (cache : CacheManager) (mem : ByteMemory) (rid fixedSize : ℕ) :
    Except Fault (Option (List UInt8) × CacheManager) := do
  let maxItems := (pageSize - headerSize) / slotSize fixedSize
  let p := rid / maxItems % 2 ^ 32
  if p < cache.numPages then
    let (page, cache) := cache.getPage p
    let off ← mapped page
    let startRid := p * maxItems
    if rid ≥ startRid ∧ rid < startRid + numItems mem off then
      return (some (← readSlot mem off ((rid - startRid) % 2 ^ 32) fixedSize), cache)
    else return (none, cache)
  else return (none, cache)

/-- The walk over all pages, which counts the items before the current one. -/
def linearScan (cache : CacheManager) (mem : ByteMemory) (rid fixedSize : ℕ) :
    List ℕ → ℕ → Except Fault (Option (List UInt8) × CacheManager)
  | [], _ => .ok (none, cache)
  | pi :: pages, currentRid => do
    let (page, cache) := cache.getPage pi
    let off ← mapped page
    if rid < currentRid + numItems mem off then
      return (some (← readSlot mem off ((rid - currentRid) % 2 ^ 32) fixedSize), cache)
    else linearScan cache mem rid fixedSize pages (currentRid + numItems mem off)

/-- The result is the content of `out` when `read_at` returns true. -/
def readAt (cache : CacheManager) (mem : ByteMemory) (rid fixedSize : ℕ) :
    Except Fault (Option (List UInt8) × CacheManager) := do
  if cache.numPages = 0 then return (none, cache)
  match ← fastPath cache mem rid fixedSize with
  | (some out, cache) => return (some out, cache)
  | (none, cache) => linearScan cache mem rid fixedSize (List.range cache.numPages) 0

end ColumnReader

end FlexQL
