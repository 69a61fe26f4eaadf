import Skp.Errno

/-! # The incremental-rehash hash table of `src/adt/dict.c`

A bucket's chain is a list of nodes, head first; a `dictnode_t *` link is the position in the chain
it points at. Node memory is a function: the embedded key (what the two compare callbacks read), the
`linked` flag (`next != DICT_NODE_POSITION`) and the three packed fields. Counters are 32 bits wide
and wrap. The division of a node count by a table size in `__dict_resize_if_needed` is exact in a
`double` (the size is a power of two), so the two ratio tests are integer tests here. -/
namespace Skp.Adt
set_option autoImplicit false

/-- `uint32_t` increment. -/
def inc32 (n : ℕ) : ℕ := if n + 1 = 2 ^ 32 then 0 else n + 1

/-- `uint32_t` decrement. -/
def dec32 (n : ℕ) : ℕ := if n = 0 then 2 ^ 32 - 1 else n - 1

structure DictNode (K : Type) where
  key : K
  linked : Bool
  hvalue : UInt32
  whichb : Bool
  bindex : ℕ

structure DictTable (N : Type) where
  nrNodes : ℕ
  size : ℕ
  bucket : ℕ → List N
  mapping : ℕ → Bool

/-- `struct dict_ops`; the compare callbacks see a node through the key it embeds. -/
structure DictOps (K : Type) where
  calcHash : K → UInt32
  compareKey : K → K → UInt32 → ℤ
  compareNode : K → K → ℤ

structure DictAttr where
  expandRatio : ℕ
  reduceRatio : ℕ
  initSize : ℕ

/-- `struct dict` with the node memory. `active` names `tables[0]` or `tables[1]`; `rehash` always
points at the other one, since the two pointers are set together and only ever swapped. -/
structure Dict (K N : Type) where
  rehashidx : ℤ
  expandRatio : ℕ
  reduceRatio : ℕ
  initSize : ℕ
  active : Bool
  tables : Bool → DictTable N
  node : N → DictNode K

def u16Max : ℕ := 65535
def dictInitSize : ℕ := 128
def dictExpandRatio : ℕ := 8
def dictReduceRatio : ℕ := 2

/-- `flsl`: the number of significant bits. -/
def flsl (n : ℕ) : ℕ := Nat.size n

def roundupPowOfTwo (n : ℕ) : ℕ := 1 <<< flsl (n - 1)

def dictNodeInit {K : Type} (n : DictNode K) : DictNode K :=
  { n with linked := false, hvalue := UInt32.ofNat (2 ^ 32 - 1), whichb := true, bindex := 2 ^ 31 - 1 }

variable {K N : Type}

namespace Dict

def rehash (d : Dict K N) : Bool := !d.active
def activeTab (d : Dict K N) : DictTable N := d.tables d.active
def rehashTab (d : Dict K N) : DictTable N := d.tables d.rehash

def setTable (d : Dict K N) (w : Bool) (t : DictTable N) : Dict K N :=
  { d with tables := Function.update d.tables w t }

def setNode [DecidableEq N] (d : Dict K N) (n : N) (v : DictNode K) : Dict K N :=
  { d with node := Function.update d.node n v }

def isRehashing (d : Dict K N) : Bool := d.rehashidx != -1

def nodes (d : Dict K N) : ℕ :=
  (d.activeTab.nrNodes + if d.rehashidx > -1 then d.rehashTab.nrNodes else 0) % 2 ^ 32

end Dict

namespace DictTable

def setBucket (t : DictTable N) (i : ℕ) (c : List N) : DictTable N :=
  { t with bucket := Function.update t.bucket i c }

def eraseNodeAfter (t : DictTable N) (idx : ℕ) : DictTable N :=
  { t with
    nrNodes := dec32 t.nrNodes
    mapping := if (t.bucket idx).isEmpty then Function.update t.mapping idx false else t.mapping }

def insertNodeBefore (t : DictTable N) (idx : ℕ) : DictTable N :=
  { t with
    mapping := if (t.bucket idx).isEmpty then Function.update t.mapping idx true else t.mapping
    nrNodes := inc32 t.nrNodes }

/-- `__get_bucket`: the index a hash value selects. -/
def getBucket (t : DictTable N) (hvalue : UInt32) : ℕ := hvalue.toNat &&& (t.size - 1)

end DictTable

/-- `find_next_bit` over a mapping of `size` bits. -/
def findNextBit (mapping : ℕ → Bool) (size start : ℕ) : ℕ :=
  ((List.range' start (size - start)).find? mapping).getD size

/-- `dict_table_init`. `mapOk` and `bucketOk` are the outcomes of the two `malloc` calls. -/
def dictTableInit (d : Dict K N) (w : Bool) (size : ℕ) (mapOk bucketOk : Bool) : Dict K N × ℤ :=
  let d := d.setTable w { nrNodes := 0, size := size, bucket := fun _ => [], mapping := fun _ => false }
  if size = 0 then
    (if w = d.rehash ∧ d.isRehashing then { d with rehashidx := -1 } else d, 0)
  else if !mapOk then (d, eNOMEM)
  else if !bucketOk then (d, eNOMEM)
  else (if w = d.rehash then { d with rehashidx := 0 } else d, 0)

def tableRelease (d : Dict K N) (w : Bool) : Dict K N := (dictTableInit d w 0 true true).1

/-- The common tail of `__dict_resize_if_needed`, once the new size is known. -/
def dictStartResize (d : Dict K N) (size : ℕ) (mapOk bucketOk : Bool) : Dict K N × Bool :=
  if size = d.activeTab.size ∨ size = 0 then (d, false)
  else
    let r := dictTableInit d d.rehash size mapOk bucketOk
    (r.1, r.2 == 0)

/-- `__dict_resize_if_needed`; the flags are the outcomes of the allocations of a new table. -/
def dictResizeIfNeeded (d : Dict K N) (isexpand mapOk bucketOk : Bool) : Dict K N × Bool :=
  let cur := d.activeTab.nrNodes
  let old := d.activeTab.size
  if cur = 0 ∨ d.isRehashing then (d, false)
  else if isexpand ∧ d.expandRatio ≠ u16Max ∧ old ≤ cur ∧ d.expandRatio * old < cur then
    dictStartResize d (max old ((old <<< 1) % 2 ^ 32)) mapOk bucketOk
  else if !isexpand ∧ cur < old ∧ d.expandRatio ≠ 1 ∧ cur < d.reduceRatio * old then
    dictStartResize d (max d.initSize (old >>> 1)) mapOk bucketOk
  else (d, false)

/-- One round of the loop of `__bucket_rehash`: `n` has been taken off the chain of bucket `bit`,
which is now `rest`; it goes to the front of its bucket of the other table. -/
def bucketRehashOne (d : Dict K N) [DecidableEq N] (bit : ℕ) (n : N) (rest : List N) : Dict K N :=
  let d := d.setTable d.active ((d.activeTab.setBucket bit rest).eraseNodeAfter bit)
  let idx := d.rehashTab.getBucket (d.node n).hvalue
  let t := d.rehashTab.insertNodeBefore idx
  let d := d.setTable d.rehash (t.setBucket idx (n :: t.bucket idx))
  d.setNode n { d.node n with bindex := idx % 2 ^ 31, whichb := d.rehash }

/-- `__bucket_rehash`: the loop pops the head until the chain is empty. -/
def bucketRehash [DecidableEq N] (bit : ℕ) : List N → Dict K N → Dict K N
  | [], d => d
  | n :: rest, d => bucketRehash bit rest (bucketRehashOne d bit n rest)

/-- `__dict_rehash`: at most `step` rounds; the result is `false` when the move is complete. -/
def dictRehashLoop [DecidableEq N] : ℕ → Dict K N → Dict K N × Bool
  | 0, d => (d, true)
  | step + 1, d =>
      if d.activeTab.nrNodes = 0 then
        let d := { d with active := d.rehash }
        (tableRelease d d.rehash, false)
      else
        let index := findNextBit d.activeTab.mapping d.activeTab.size d.rehashidx.toNat
        let d := { d with rehashidx := (index : ℤ) + 1 }
        dictRehashLoop step (bucketRehash index (d.activeTab.bucket index) d)

def dictRehash [DecidableEq N] (d : Dict K N) (step : ℕ) : Dict K N × Bool :=
  if d.isRehashing then dictRehashLoop step d else (d, false)

/-- `__dict_check_rehashing`: a `DEBUG` build moves one bucket, a release build two to eight. -/
def dictCheckRehashing [DecidableEq N] (debug : Bool) (d : Dict K N) : Dict K N × Bool :=
  if d.isRehashing then
    if debug then dictRehash d 1
    else dictRehash d (min (max (d.activeTab.nrNodes / d.activeTab.size) 2) 8)
  else (d, false)

/-- The place a lookup ends at: table, bucket, link and the node there. -/
structure DictFound (N : Type) where
  tab : Bool
  idx : ℕ
  link : ℕ
  node : Option N

/-- `__bucket_lookup_key` in one table: the link of the first match, or of the end of the chain. -/
def lookupKeyIn (ops : DictOps K) (d : Dict K N) (w : Bool) (key : K) (h : UInt32) : DictFound N :=
  let idx := (d.tables w).getBucket h
  let chain := (d.tables w).bucket idx
  let link := chain.findIdx fun n => ops.compareKey (d.node n).key key h == 0
  { tab := w, idx := idx, link := link, node := chain[link]? }

/-- `__start_lookup`: the active table first, then the other one while a move is under way. -/
def startLookup (ops : DictOps K) (d : Dict K N) (key : K) : DictFound N :=
  let h := ops.calcHash key
  let r := lookupKeyIn ops d d.active key h
  if r.node.isNone ∧ d.isRehashing then lookupKeyIn ops d d.rehash key h else r

/-- Outcome of a call: a node or `NULL`, an error code, the flag of a rehash step, or a `BUG_ON`. -/
inductive DictOut (N : Type) where
  | node (n : Option N)
  | rc (r : ℤ)
  | flag (b : Bool)
  | bug
deriving DecidableEq

/-- The calls of the interface with the outcomes of their allocations, and the one thing a client
does besides: it writes the key of an entry. -/
inductive DictCmd (K N : Type) where
  | insert (key : K) (node : N) (mapOk bucketOk : Bool)
  | lookup (key : K)
  | lookupRemove (key : K) (mapOk bucketOk : Bool)
  | directRemove (node : N) (mapOk bucketOk : Bool)
  | checkRehashing
  | setKey (node : N) (key : K)

variable [DecidableEq N]

def dictInsert (ops : DictOps K) (debug : Bool) (d : Dict K N) (key : K) (n : N)
    (mapOk bucketOk : Bool) : Dict K N × DictOut N :=
  let d := (dictCheckRehashing debug d).1
  let d := (dictResizeIfNeeded d true mapOk bucketOk).1
  let r := startLookup ops d key
  match r.node with
  | some old => (d, .node (some old))
  | none =>
      let d := d.setNode n
        { d.node n with
          hvalue := ops.calcHash key
          whichb := r.tab
          bindex := r.idx % 2 ^ 31
          linked := true }
      let t := (d.tables r.tab).insertNodeBefore r.idx
      (d.setTable r.tab (t.setBucket r.idx ((t.bucket r.idx).insertIdx r.link n)), .node none)

def dictLookup (ops : DictOps K) (d : Dict K N) (key : K) : DictOut N :=
  if d.nodes = 0 then .node none else .node (startLookup ops d key).node

/-- The common tail of the two removals: unlink, account, maybe start a shrink, reset the node. -/
def dictUnlink (d : Dict K N) (tab : Bool) (idx link : ℕ) (n : N) (mapOk bucketOk : Bool) : Dict K N :=
  let t := (d.tables tab).setBucket idx (((d.tables tab).bucket idx).eraseIdx link)
  let d := d.setTable tab (t.eraseNodeAfter idx)
  let d := (dictResizeIfNeeded d false mapOk bucketOk).1
  d.setNode n (dictNodeInit (d.node n))

def dictLookupRemove (ops : DictOps K) (debug : Bool) (d : Dict K N) (key : K)
    (mapOk bucketOk : Bool) : Dict K N × DictOut N :=
  let d := (dictCheckRehashing debug d).1
  if d.nodes = 0 then (d, .node none)
  else
    let r := startLookup ops d key
    match r.node with
    | none => (d, .node none)
    | some n => (dictUnlink d r.tab r.idx r.link n mapOk bucketOk, .node (some n))

def dictDirectRemove (ops : DictOps K) (d : Dict K N) (n : N) (mapOk bucketOk : Bool) :
    Dict K N × DictOut N :=
  if !(d.node n).linked then (d, .rc eINVAL)
  else
    let w := (d.node n).whichb
    let idx := (d.tables w).getBucket (d.node n).hvalue
    if idx ≠ (d.node n).bindex then (d, .bug)
    else
      let chain := (d.tables w).bucket idx
      let link := chain.findIdx fun m => ops.compareNode (d.node m).key (d.node n).key == 0
      if chain[link]? ≠ some n then (d, .bug)
      else (dictUnlink d w idx link n mapOk bucketOk, .rc 0)

def dictExec (ops : DictOps K) (debug : Bool) (d : Dict K N) : DictCmd K N → Dict K N × DictOut N
  | .insert key n mapOk bucketOk => dictInsert ops debug d key n mapOk bucketOk
  | .lookup key => (d, dictLookup ops d key)
  | .lookupRemove key mapOk bucketOk => dictLookupRemove ops debug d key mapOk bucketOk
  | .directRemove n mapOk bucketOk => dictDirectRemove ops d n mapOk bucketOk
  | .checkRehashing => let r := dictCheckRehashing debug d; (r.1, .flag r.2)
  | .setKey n key => (d.setNode n { d.node n with key := key }, .rc 0)

/-- The ratios and the size `dict_init` settles on: zero asks for the default. -/
def orDefault (v dflt : ℕ) : ℕ := if v = 0 then dflt else v

/-- `dict_init` over a node memory; `none` where a `BUG_ON` or a failed allocation ends it. -/
def dictInit (attr : DictAttr) (mem : N → DictNode K) (mapOk bucketOk : Bool) : Option (Dict K N) :=
  let empty : DictTable N := { nrNodes := 0, size := 0, bucket := fun _ => [], mapping := fun _ => false }
  let d : Dict K N :=
    { rehashidx := -1
      expandRatio := orDefault attr.expandRatio dictExpandRatio
      reduceRatio := orDefault attr.reduceRatio dictReduceRatio
      initSize := roundupPowOfTwo (orDefault attr.initSize dictInitSize) % 2 ^ 32
      active := false
      tables := fun _ => empty
      node := mem }
  if d.expandRatio ≤ d.reduceRatio then none
  else
    let r := dictTableInit d d.active d.initSize mapOk bucketOk
    if r.2 ≠ 0 then none
    else some (dictTableInit r.1 r.1.rehash 0 true true).1

end Skp.Adt
