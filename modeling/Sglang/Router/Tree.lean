import Sglang.Lib.OwnedLookup
import Sglang.Lib.OrderedDict

/-! # The prefix tree of the router

Source: `sgl-router/src/tree.rs`.

The tree holds the texts that were routed to each tenant. A node has a text, the tenants that have
been seen there with the time of their last access, and children with different first characters.
The root has the empty text and is kept apart from the forest below it. Nodes are identified by
numbers; `counter` is the next one.

The maps of the source are unordered: which tenant an iteration gives first, and which of the
entries with the same time leaves a heap first, is an input of the operations. -/
set_option autoImplicit false

namespace Sglang.Router
open Sglang.Lib Sglang.Lib.Forest Function

abbrev Text := List Char

abbrev Tenant := String

/-- `tenant_last_access_time` -/
abbrev AccessTimes := OrderedDict Tenant ℕ

/-- `shared_prefix_count` -/
def sharedPrefixCount : Text → Text → ℕ
  | a :: as, b :: bs => if a = b then sharedPrefixCount as bs + 1 else 0
  | _, _ => 0

structure Tree where
  root : AccessTimes
  forest : Forest Char AccessTimes
  counter : ℕ
  tenantCharCount : Tenant → Option ℕ

def rootId : ℕ := 0

namespace Tree

/-- `Tree::new` -/
def new : Tree := ⟨.empty, .nil, 1, fun _ => none⟩

def tenants (tr : Tree) (i : ℕ) : AccessTimes :=
  if i = rootId then tr.root else ((tr.forest.find? i).map fun x => x.1.val).getD .empty

def text (tr : Tree) (i : ℕ) : Text := ((tr.forest.find? i).map fun x => x.1.key).getD []

def children (tr : Tree) (i : ℕ) : Forest Char AccessTimes := tr.forest.children rootId i

def parent (tr : Tree) (i : ℕ) : Option ℕ :=
  match tr.forest.path i with
  | [] => none
  | [_] => some rootId
  | _ :: b :: _ => some b.id

/-- `tenant_char_count.entry(tenant).and_modify(|count| *count += n).or_insert(n)` -/
def addCount (tr : Tree) (t : Tenant) (n : ℕ) : Tree :=
  { tr with tenantCharCount := update tr.tenantCharCount t (some ((tr.tenantCharCount t).getD 0 + n)) }

/-! ## Insertion -/

/-- Attach the tenant to a node below the root, and count its text once. -/
def attach (tr : Tree) (i : ℕ) (t : Tenant) (now : ℕ) : Tree :=
  let counted := match (tr.tenants i).get? t with
    | none => tr.addCount t (tr.text i).length
    | some _ => tr
  { counted with forest := tr.forest.modify i fun v => v.insert t now }

def addLeaf (tr : Tree) (t : Tenant) (now prev : ℕ) (rest : Text) : Tree :=
  { tr.addCount t rest.length with
    forest := tr.forest.graft rootId prev ⟨tr.counter, rest, OrderedDict.empty.insert t now⟩
    counter := tr.counter + 1 }

/-- The tree with a node cut in two; the new node takes the shared text and a copy of the
tenants. -/
def split (tr : Tree) (i shared : ℕ) : Tree :=
  { tr with
    forest := tr.forest.splitNode (fun _ v => (v, v)) i shared tr.counter
    counter := tr.counter + 1 }

/-- One round of the loop of `insert`: the node that was reached, and the text that is left. -/
def insertStep (t : Tenant) (now : ℕ) (tr : Tree) (prev : ℕ) (rest : Text) : Tree × ℕ × Text :=
  match (tr.children prev).child 1 rest with
  | none => (tr.addLeaf t now prev rest, tr.counter, [])
  | some matched =>
    let shared := sharedPrefixCount matched.key rest
    if shared < matched.key.length then ((tr.split matched.id shared).attach tr.counter t now,
      tr.counter, rest.drop shared)
    else (tr.attach matched.id t now, matched.id, rest.drop shared)

/-- The loop of `insert`; every round takes at least one character. -/
def insertLoop (t : Tenant) (now : ℕ) : ℕ → Tree → ℕ → Text → Tree
  | 0, tr, _, _ => tr
  | fuel + 1, tr, prev, rest =>
    if rest = [] then tr
    else
      let (tr, prev, rest) := insertStep t now tr prev rest
      insertLoop t now fuel tr prev rest

/-- `Tree::insert` -/
def insert (tr : Tree) (text : Text) (t : Tenant) (now : ℕ) : Tree :=
  let counted := match tr.tenantCharCount t with
    | none => { tr with tenantCharCount := update tr.tenantCharCount t (some 0) }
    | some _ => tr
  insertLoop t now text.length { counted with root := tr.root.insert t now } rootId text

/-! ## Lookups -/

/-- Renew the access time of the tenant from a node up to the root. -/
def touch (tr : Tree) (i : ℕ) (t : Tenant) (now : ℕ) : Tree :=
  { tr with
    root := tr.root.insert t now
    forest := (tr.forest.anc i).foldl (fun f j => f.modify j fun v => v.insert t now) tr.forest }

def lastNode (d : Descent Char AccessTimes) : ℕ := (d.visited.getLast?.map Node.id).getD rootId

/-- `Tree::prefix_match`; `first` says which of the tenants of the last node comes first. -/
def prefixMatch (tr : Tree) (text : Text) (now first : ℕ) : (Text × Tenant) × Tree :=
  let d := tr.forest.descend sharedPrefixCount 1 text
  let names := (tr.tenants (lastNode d)).keys
  let tenant := names[first % names.length]?.getD "empty"
  ((text.take d.matched, tenant), if tenant ≠ "empty" then tr.touch (lastNode d) tenant now else tr)

/-- `Tree::prefix_match_tenant` -/
def prefixMatchTenant (tr : Tree) (text : Text) (t : Tenant) (now : ℕ) : Text × Tree :=
  let d := tr.forest.descendIn (fun v => t ∈ v.keys) sharedPrefixCount 1 text
  (text.take d.matched, if t ∈ (tr.tenants (lastNode d)).keys then tr.touch (lastNode d) t now else tr)

/-! ## Eviction -/

/-- `Tree::leaf_of` -/
def leafOf (tr : Tree) (i : ℕ) : List Tenant :=
  (tr.tenants i).keys.filter fun t => (tr.children i).tops.all fun c => decide (t ∉ c.val.keys)

def dropTenant (tr : Tree) (i : ℕ) (t : Tenant) : Tree :=
  if i = rootId then { tr with root := tr.root.erase t }
  else
    let tr := { tr with forest := tr.forest.modify i fun v => v.erase t }
    if tr.forest.isLeaf i = true ∧ (tr.tenants i).keys =
      [] then { tr with forest := tr.forest.erase i } else tr

/-- The parent of the node, if it has become a leaf of the tenant. -/
def newLeaf (before after : Tree) (i : ℕ) (t : Tenant) : Option ℕ :=
  (before.parent i).filter fun p => decide (t ∈ after.leafOf p)

structure EvictionEntry where
  timestamp : ℕ
  tenant : Tenant
  node : ℕ
  deriving DecidableEq

def leafEntries (tr : Tree) (i : ℕ) : List EvictionEntry :=
  (tr.leafOf i).filterMap fun t => ((tr.tenants i).get? t).map fun ts => ⟨ts, t, i⟩

/-- `pq.pop()`: one of the entries with the smallest time. -/
def popMin (tie : ℕ) (heap : List EvictionEntry) : Option (EvictionEntry × List EvictionEntry) :=
  let oldest := heap.filter fun e => heap.all fun e' => decide (e.timestamp ≤ e'.timestamp)
  oldest[tie % oldest.length]?.map fun e => (e, heap.erase e)

/-- The round of the eviction loop for an entry. -/
def evictEntry (maxSize : ℕ) (tr : Tree) (heap : List EvictionEntry) (e : EvictionEntry) :
    Tree × List EvictionEntry :=
  if (tr.tenantCharCount e.tenant).any fun used => decide (used ≤ maxSize) then (tr, heap)
  else
    let counted := if e.tenant ∈ (tr.tenants e.node).keys then
        { tr with
          tenantCharCount := update tr.tenantCharCount e.tenant
            ((tr.tenantCharCount e.tenant).map fun n => n - (tr.text e.node).length) }
      else tr
    let dropped := counted.dropTenant e.node e.tenant
    let above := (newLeaf tr dropped e.node e.tenant).bind fun p =>
      ((dropped.tenants p).get? e.tenant).map fun ts => ⟨ts, e.tenant, p⟩
    (dropped, above.toList ++ heap)

def evictLoop (maxSize : ℕ) (ties : ℕ → ℕ) : ℕ → Tree → List EvictionEntry → Tree × List EvictionEntry
  | 0, tr, heap => (tr, heap)
  | fuel + 1, tr, heap =>
    match popMin (ties fuel) heap with
    | none => (tr, heap)
    | some (e, heap) =>
      let (tr, heap) := evictEntry maxSize tr heap e
      evictLoop maxSize ties fuel tr heap

def places (tr : Tree) : ℕ := (tr.forest.nodes.map fun nd => nd.val.keys.length).sum

def nodeIds (tr : Tree) : List ℕ := rootId :: tr.forest.ids

/-- `Tree::evict_tenant_by_size`; every round takes an entry from the heap, and a new entry comes
with a tenant that leaves a node. -/
def evictTenantBySize (tr : Tree) (maxSize : ℕ) (ties : ℕ → ℕ) : Tree :=
  let heap := tr.nodeIds.flatMap tr.leafEntries
  (evictLoop maxSize ties (heap.length + tr.places) tr heap).1

/-! ## Removal of a tenant -/

/-- The round of the loop of `remove_tenant` for a node. -/
def removeFrom (t : Tenant) (tr : Tree) (queue : List ℕ) (i : ℕ) : Tree × List ℕ :=
  let dropped := tr.dropTenant i t
  (dropped, queue ++ (newLeaf tr dropped i t).toList)

def removeLoop (t : Tenant) : ℕ → Tree → List ℕ → Tree × List ℕ
  | 0, tr, queue => (tr, queue)
  | _ + 1, tr, [] => (tr, [])
  | fuel + 1, tr, i :: queue =>
    let (tr, queue) := removeFrom t tr queue i
    removeLoop t fuel tr queue

def charTotal (tr : Tree) : ℕ := (tr.forest.nodes.map fun nd => nd.key.length).sum

/-- `Tree::remove_tenant`; every round takes the prefixes of a node from the tenant. -/
def removeTenant (tr : Tree) (t : Tenant) : Tree :=
  let queue := tr.nodeIds.filter fun i => decide (t ∈ tr.leafOf i)
  let tr := (removeLoop t (tr.charTotal + 1) tr queue).1
  { tr with tenantCharCount := update tr.tenantCharCount t none }

/-! ## The recount -/

/-- `Tree::get_used_size_per_tenant` -/
def getUsedSizePerTenant (tr : Tree) : Tenant → Option ℕ :=
  let visit := fun (used : Tenant → Option ℕ) (v : AccessTimes) (size : ℕ) =>
    v.keys.foldl (fun used t => update used t (some ((used t).getD 0 + size))) used
  tr.forest.nodes.foldl (fun used nd => visit used nd.val nd.key.length)
    (visit (fun _ => none) tr.root 0)

end Tree

/-! ## Runs -/

inductive Op where
  | insert (text : Text) (tenant : Tenant) (now : ℕ)
  | prefixMatch (text : Text) (now first : ℕ)
  | prefixMatchTenant (text : Text) (tenant : Tenant) (now : ℕ)
  | evictTenantBySize (maxSize : ℕ) (ties : ℕ → ℕ)
  | removeTenant (tenant : Tenant)

def step (tr : Tree) : Op → Tree
  | .insert text t now => tr.insert text t now
  | .prefixMatch text now first => (tr.prefixMatch text now first).2
  | .prefixMatchTenant text t now => (tr.prefixMatchTenant text t now).2
  | .evictTenantBySize maxSize ties => tr.evictTenantBySize maxSize ties
  | .removeTenant t => tr.removeTenant t

def after (ops : List Op) : Tree := ops.foldl step .new

end Sglang.Router
