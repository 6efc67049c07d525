import Sglang.Lib.ForestMeasure
import Sglang.MemCache.KeyMatch

/-! # The radix tree of `radix_cache.py`

Source: `python/sglang/srt/mem_cache/radix_cache.py`, class `RadixCache` with its `TreeNode`.

* The children of `root_node` are a `Forest`; a node carries its `id`, `key` and `value`. The other
  attributes of a `TreeNode` that the class reads are kept per identity, as the attributes of
  Python objects are: `lockRef` and `lastAccessTime`. A loop `while node != self.root_node` that
  follows `node.parent` is a loop over `Forest.path`.
* `get_child_key_fn` gives `key[0]` for page size 1 and the first page as a tuple otherwise. A
  child is found by the first `page_size` tokens of its key in both cases.
* The `n`-th call of `time.monotonic()` returns `monotonic n`, where `monotonic` is any function.
* Calls of `token_to_kv_pool_allocator.free` are returned as the list of their arguments. -/
set_option autoImplicit false

namespace Sglang
open Sglang.Lib Forest Function

/-! ## State -/

structure RadixCache.Config where
  pageSize : ℕ
  pageSize_pos : 0 < pageSize
  monotonic : ℕ → ℕ

/-- The identity of `root_node`. -/
def rootId : ℕ := 0

/-- The fields of `RadixCache` and the attributes of its nodes. -/
structure RadixCache where
  /-- `root_node.children` -/
  tree : Forest Token (List Slot)
  lockRef : ℕ → ℤ
  lastAccessTime : ℕ → ℕ
  evictableSize : ℤ
  protectedSize : ℤ
  /-- `TreeNode.counter` -/
  counter : ℕ
  /-- the number of calls of `time.monotonic()` so far -/
  clock : ℕ

namespace RadixCache

/-- `RadixCache.reset`: only `root_node`, which is locked. -/
def reset (c : Config) : RadixCache where
  tree := nil
  lockRef := fun i => if i = rootId then 1 else 0
  lastAccessTime := fun _ => c.monotonic 0
  evictableSize := 0
  protectedSize := 0
  counter := rootId + 1
  clock := 1

/-- `node.last_access_time = time.monotonic()` -/
def touch (c : Config) (s : RadixCache) (i : ℕ) : RadixCache :=
  { s with
    lastAccessTime := update s.lastAccessTime i (c.monotonic s.clock)
    clock := s.clock + 1 }

/-- `TreeNode()`: the attributes of a new object, whose identity is `s.counter`. -/
def newTreeNode (c : Config) (s : RadixCache) : RadixCache :=
  { touch c s s.counter with
    lockRef := update s.lockRef s.counter 0
    counter := s.counter + 1 }

/-- How the value of a node is divided when the node is split. -/
def splitValue (m : ℕ) (v : List Slot) : List Slot × List Slot := (v.take m, v.drop m)

/-- `_split_node`: the new node `new_node` takes the first `splitLen` tokens of `child`. -/
def splitNode (c : Config) (s : RadixCache) (child : Node Token (List Slot)) (splitLen : ℕ) :
    RadixCache :=
  let s' := newTreeNode c s
  { s' with
    tree := s.tree.splitNode splitValue child.id splitLen s.counter
    lockRef := update s'.lockRef s.counter (s.lockRef child.id) }

/-! ## Matching and inserting -/

/-- Where the loop of `_match_prefix_helper` and `_insert_helper` ends for `key`. -/
def descent (c : Config) (s : RadixCache) (key : List Token) : Descent Token (List Slot) :=
  s.tree.descend (keyMatchFn c.pageSize) c.pageSize key

/-- What the two loops do to the tree: the visited nodes get the current time, and a node that is
matched only in part is split. -/
def walk (c : Config) (s : RadixCache) (key : List Token) : RadixCache :=
  let d := descent c s key
  let s := d.full.foldl (fun s nd => touch c s nd.id) (touch c s rootId)
  match d.part with
  | none => s
  | some (child, prefixLen) => splitNode c (touch c s child.id) child prefixLen

/-- `MatchResult`; `last_host_node` is `last_device_node` here. -/
structure MatchResult where
  deviceIndices : List Slot
  lastDeviceNode : ℕ

/-- `_match_prefix_helper` from the root, with the concatenation of the values. -/
def matchPrefixHelper (c : Config) (s : RadixCache) (key : List Token) :
    MatchResult × RadixCache :=
  let d := descent c s key
  (⟨d.vals id, d.last splitValue rootId s.counter⟩, walk c s key)

/-- `match_prefix` -/
def matchPrefix (c : Config) (s : RadixCache) (key : List Token) : MatchResult × RadixCache :=
  if key.length = 0 then (⟨[], rootId⟩, s)
  else
    let key := if c.pageSize ≠ 1 then key.take (key.length / c.pageSize * c.pageSize) else key
    matchPrefixHelper c s key

/-- `_insert_helper` from the root. After a split the loop ends: either no key is left, or its next
page differs from that of the only child of the new node. -/
def insertHelper (c : Config) (s : RadixCache) (key : List Token) (value : List Slot) :
    ℕ × RadixCache :=
  if key.length = 0 then (0, touch c s rootId)
  else
    let d := descent c s key
    let s' := walk c s key
    let totalPrefixLength := d.matched
    let key := key.drop totalPrefixLength
    let value := value.drop totalPrefixLength
    if key.length ≠ 0 then
      let s'' := newTreeNode c s'
      (totalPrefixLength,
        { s'' with
          tree := s'.tree.graft rootId (d.last splitValue rootId s.counter) ⟨s'.counter, key, value⟩
          evictableSize := s'.evictableSize + value.length })
    else (totalPrefixLength, s')

/-- `insert` -/
def insert (c : Config) (s : RadixCache) (key : List Token) (value : List Slot) : ℕ × RadixCache :=
  insertHelper c s key value

/-! ## Locks -/

/-- The body of the loop of `inc_lock_ref`, with the accumulated `delta`. -/
def incNode (r : ℤ × RadixCache) (node : Node Token (List Slot)) : ℤ × RadixCache :=
  let (delta, s) := r
  let lockRef := update s.lockRef node.id (s.lockRef node.id + 1)
  if s.lockRef node.id = 0 then
    (delta - node.val.length,
      { s with
        lockRef := lockRef
        evictableSize := s.evictableSize - node.val.length
        protectedSize := s.protectedSize + node.val.length })
  else (delta, { s with lockRef := lockRef })

/-- `inc_lock_ref` -/
def incLockRef (s : RadixCache) (node : ℕ) : ℤ × RadixCache :=
  (s.tree.path node).foldl incNode (0, s)

/-- The body of the loop of `dec_lock_ref`, with the accumulated `delta`. -/
def decNode (r : ℤ × RadixCache) (node : Node Token (List Slot)) : ℤ × RadixCache :=
  let (delta, s) := r
  let lockRef := update s.lockRef node.id (s.lockRef node.id - 1)
  if s.lockRef node.id = 1 then
    (delta + node.val.length,
      { s with
        lockRef := lockRef
        evictableSize := s.evictableSize + node.val.length
        protectedSize := s.protectedSize - node.val.length })
  else (delta, { s with lockRef := lockRef })

/-- `dec_lock_ref` -/
def decLockRef (s : RadixCache) (node : ℕ) : ℤ × RadixCache :=
  (s.tree.path node).foldl decNode (0, s)

/-! ## Eviction -/

/-- `_collect_leaves`; `root_node` itself is the only leaf of an empty tree. -/
def collectLeaves (s : RadixCache) : List ℕ :=
  match s.tree with
  | nil => [rootId]
  | f => f.leaves

/-- `heapq.heappop` on nodes compared by `last_access_time`: a least element and the others. -/
def heappop (s : RadixCache) (leaves : List ℕ) : Option (ℕ × List ℕ) :=
  (leaves.argmin s.lastAccessTime).map fun x => (x, leaves.erase x)

/-- `len(node.children) == 0` -/
def childless (s : RadixCache) (node : ℕ) : Bool :=
  if node = rootId then s.tree.ids.isEmpty else s.tree.isLeaf node

/-- `_delete_leaf` -/
def deleteLeaf (s : RadixCache) (node : Node Token (List Slot)) : RadixCache :=
  { s with
    tree := s.tree.erase node.id
    evictableSize := s.evictableSize - node.key.length }

/-- The loop of `evict`; at most `fuel` rounds. Returns the freed values in order. -/
def evictLoop (numTokens : ℕ) : ℕ → ℕ → List ℕ → RadixCache → RadixCache × List (List Slot)
  | 0, _, _, s => (s, [])
  | fuel + 1, numEvicted, leaves, s =>
    if numEvicted < numTokens then
      match heappop s leaves with
      | none => (s, [])
      | some (x, leaves) =>
        if x = rootId then (s, [])
        else if s.lockRef x > 0 then evictLoop numTokens fuel numEvicted leaves s
        else
          match s.tree.path x with
          -- every element of the heap is a node of the tree
          | [] => evictLoop numTokens fuel numEvicted leaves s
          | node :: above =>
            let s' := deleteLeaf s node
            let parent := (above.head?.map Node.id).getD rootId
            let leaves := if childless s' parent then parent :: leaves else leaves
            let r := evictLoop numTokens fuel (numEvicted + node.val.length) leaves s'
            (r.1, node.val :: r.2)
    else (s, [])

/-- `evict`: every round takes a node off the heap, and a node is pushed only when its last child
has been deleted, so the number of nodes bounds the rounds. -/
def evict (s : RadixCache) (numTokens : ℕ) : RadixCache × List (List Slot) :=
  evictLoop numTokens (s.collectLeaves.length + s.tree.ids.length + 1) 0 s.collectLeaves s

end RadixCache
end Sglang
