/-
# Agfs.BTree.Duplicates — several values under one key

The value of a leaf entry is a value (`linkType` 0), or a link: to a slot of a fragment node (3),
an array of a count and up to 7 values, 16 of them in a node; or to a duplicate node (2), which has
links to its neighbours, a count and up to 125 values. `insertDup` and `removeDup` are what the
calls do when the key is there: the first duplicate takes a slot, the eighth value a node of its
own, the 126th a second node behind it; a removal that leaves one value puts it back into the leaf.

Both hold the leaf's buffer throughout. A node in the same block is read and changed through it, and
writing it is left to the end.
-/
import Argentum.Agfs.BTree.Store

namespace Argentum.Agfs.BTree

open Function

/-! ## Links -/

/-- `AGFS_BTREE_DUPLICATE_NODE`. -/
def duplicateNode : Nat := 2

/-- `AGFS_BTREE_DUPLICATE_FRAGMENT`. -/
def duplicateFragment : Nat := 3

/-- `AGFS_BTREE_NUM_FRAGMENT_VALUES`. -/
def numFragmentValues : Nat := 7

/-- `AGFS_BTREE_NUM_DUPLICATE_VALUES`. -/
def numDuplicateValues : Nat := 125

/-- `AGFS_BTREE_MAX_FRAGMENTS`. -/
def maxFragments : Nat := 16

/-- `AGFS_BTREE_NULL`, in a word. -/
def nullLink : Nat := 2 ^ 64 - 1

/-- `agfs_dup_link_type`. -/
def linkType (v : Nat) : Nat := v / 2 ^ 62

/-- `agfs_dup_link_off`. -/
def linkOff (v : Nat) : Nat := v % 2 ^ 62 / 1024 * 1024

/-- `agfs_dup_link_frag`. -/
def linkFrag (v : Nat) : Nat := v % 1024

/-- `agfs_dup_make_link`. -/
def makeLink (type off frag : Nat) : Nat :=
  type * 2 ^ 62 + off % 2 ^ 62 / 1024 * 1024 + frag % 1024

/-! ## Arrays of a count and values

`base` is the word of the count. -/

/-- The count of the slot. -/
def slotBase (slot : Nat) : Nat := slot * (numFragmentValues + 1)

/-- The count of a duplicate node, after its two links. -/
def nodeBase : Nat := 2

section

variable (env : Env) (leaf off new : Nat) (w : Nat → Nat) (change : (Nat → Nat) → Nat → Nat)

/-- `arr[arr[0] + 1] = value; arr[0]++`. -/
def push (base value : Nat) : Nat → Nat :=
  update (update w (base + w base + 1) value) base (w base + 1)

/-- The first place of the value among those the array has. -/
def place (w : Nat → Nat) (base value : Nat) : Option Nat :=
  (List.range (w base)).find? fun i => w (base + 1 + i) == value

/-- The values behind place `i` move down by one. -/
def dropAt (base i : Nat) : Nat → Nat := fun j =>
  if j = base then w base - 1
  else if base + 1 + i ≤ j ∧ j < base + w base then w (j + 1)
  else w j

/-- `agfs_dup_fragments_used`. -/
def fragmentsUsed : Nat :=
  (List.range maxFragments).countP fun slot => w (slotBase slot) != 0

def freeSlot : Option Nat :=
  (List.range maxFragments).find? fun slot => w (slotBase slot) == 0

variable {K : Type}

/-! ## Adding a value -/

/-- An empty slot in a fragment node that this leaf has a link to. -/
def linkedSlot (env : Env) (leaf : Nat) (t : Tree K) : List (K × Nat) → Option (Nat × Nat)
  | [] => none
  | (_, v) :: rest =>
    if linkType v ≠ duplicateFragment then linkedSlot env leaf t rest
    else if !env.sameBlock (linkOff v) leaf && env.lost (linkOff v) t.size then
      linkedSlot env leaf t rest
    else
      match freeSlot (t.disk.words (linkOff v)) with
      | some slot => some (linkOff v, slot)
      | none => linkedSlot env leaf t rest

/-- `agfs_dup_find_fragment`: the node and the slot. -/
def findFragment (leaf : Nat) (t : Tree K) : Except Errno (Nat × Nat) × Tree K :=
  match linkedSlot env leaf t (t.disk.nodes leaf).pairs with
  | some found => (.ok found, t)
  | none =>
    match grow env (some leaf) none t with
    | (.error e, t) => (.error e, t)
    | (.ok off, t) =>
      (.ok (off, 0), { t.setWords off (fun _ => 0) with fragments := off :: t.fragments })

/-- A slot with two values. -/
def fillSlot (base old value : Nat) : Nat → Nat :=
  update (update (update w base 2) (base + 1) old) (base + 2) value

/-- `agfs_btree_dup_promote`. -/
def promote (leaf index old value : Nat) (t : Tree K) : Except Errno Unit × Tree K :=
  match findFragment env leaf t with
  | (.error e, t) => (.error e, t)
  | (.ok (off, slot), t) =>
    let t := t.rewrite env off (fillSlot (t.disk.words off) (slotBase slot) old value) leaf
    (.ok (), t.setValue leaf index (makeLink duplicateFragment off slot))

/-- The node's only slot moved to where a duplicate node has its array; no neighbours. -/
def convertNode (base : Nat) : Nat → Nat := fun j =>
  if j < nodeBase then nullLink
  else if j < nodeBase + 8 then w (base + (j - nodeBase))
  else w j

/-- A fresh duplicate node with the slot's array; no neighbours. -/
def copyToNode (base : Nat) : Nat → Nat := fun j =>
  if j < nodeBase then nullLink
  else if j < nodeBase + 8 then w (base + (j - nodeBase))
  else 0

def clearSlot (base : Nat) : Nat → Nat := fun j =>
  if base ≤ j ∧ j < base + 8 then 0 else w j

/-- The count as `agfs_btree_dup_fragment_add` takes it: one that no slot can have is a zero. -/
def saneSlot (base : Nat) : Nat → Nat :=
  if numFragmentValues < w base then update w base 0 else w

/-- A new duplicate node, and the change to the node `off` that goes with it. The new one may be in
the leaf's buffer or in that of `off`. -/
def addNode (t : Tree K) : Tree K :=
  let t := t.setWords new w
  let t := t.rewrite env off (change (t.disk.words off)) leaf
  if env.sameBlock new leaf || env.sameBlock new off then t else t.log env new

/-- `agfs_btree_dup_fragment_add`. -/
def fragmentAdd (leaf index old value : Nat) (t : Tree K) : Except Errno Unit × Tree K :=
  let off := linkOff old
  let base := slotBase (linkFrag old)
  let w := saneSlot (t.disk.words off) base
  if w base < numFragmentValues then
    (.ok (), t.rewrite env off (push w base value) leaf)
  else if fragmentsUsed w < 2 then
    -- only this slot: the node itself becomes a duplicate node
    let t := t.rewrite env off (push (convertNode w base) nodeBase value) leaf
    let t := { t with fragments := t.fragments.filter (· ≠ off) }
    (.ok (), t.setValue leaf index (makeLink duplicateNode off 0))
  else
    match grow env (some leaf) (if env.sameBlock off leaf then none else some off) t with
    | (.error e, t) => (.error e, t)
    | (.ok new, t) =>
      let t := addNode env leaf off new (push (copyToNode w base) nodeBase value)
        (clearSlot · base) t
      (.ok (), t.setValue leaf index (makeLink duplicateNode new 0))

/-- A fresh duplicate node behind `left`, with one value. -/
def lastNode (left value : Nat) : Nat → Nat
  | 0 => left
  | 1 => nullLink
  | 2 => 1
  | 3 => value
  | _ => 0

/-- `agfs_btree_dup_node_add`: along the chain to the first node with room. Nothing, if the links
go round in a circle. -/
def dupNodeAdd (env : Env) (leaf value : Nat) :
    Nat → Nat → Tree K → Option (Except Errno Unit × Tree K)
  | 0, _, _ => none
  | fuel + 1, off, t =>
    let w := t.disk.words off
    if w nodeBase < numDuplicateValues then
      some (.ok (), t.rewrite env off (push w nodeBase value) leaf)
    else if w 1 ≠ nullLink then dupNodeAdd env leaf value fuel (w 1) t
    else
      match grow env (some leaf) (if env.sameBlock off leaf then none else some off) t with
      | (.error e, t) => some (.error e, t)
      | (.ok new, t) =>
        some (.ok (), addNode env leaf off new (lastNode off value) (update · 1 new) t)

/-- More links than the stream has nodes. -/
def Tree.hops (t : Tree K) : Nat := t.size / nodeSize + 1

/-- The leaf's buffer is written if the call went well. -/
def writeLeaf (leaf : Nat) (r : Except Errno Unit × Tree K) : Except Errno Unit × Tree K :=
  match r with
  | (.ok (), t) => (.ok (), t.log env leaf)
  | (.error e, t) => (.error e, t)

/-- `agfs_btree_insert_dup`. -/
def insertDup (leaf index value : Nat) (t : Tree K) : Option (Except Errno Unit × Tree K) :=
  match (t.disk.nodes leaf).pairs[index]? with
  | none => none
  | some (_, old) =>
    if linkType old = 0 then some (writeLeaf env leaf (promote env leaf index old value t))
    else if linkType old = duplicateFragment then
      some (writeLeaf env leaf (fragmentAdd env leaf index old value t))
    else (dupNodeAdd env leaf value t.hops (linkOff old) t).map (writeLeaf env leaf)

/-! ## Removing a value -/

/-- The walk of `agfs_btree_remove_dup` for the value: the node that has it, and the place there. -/
def searchChain (words : Nat → Nat → Nat) (value : Nat) : Nat → Nat → Option (Option (Nat × Nat))
  | 0, _ => none
  | fuel + 1, off =>
    match place (words off) nodeBase value with
    | some i => some (some (off, i))
    | none =>
      if words off 1 = nullLink then some none
      else searchChain words value fuel (words off 1)

/-- The walk of the clean-up: how many values there are, and the one of the last node with just
one. -/
def chainTotal (words : Nat → Nat → Nat) : Nat → Nat → Nat × Nat → Option (Nat × Nat)
  | 0, _, _ => none
  | fuel + 1, off, (total, last) =>
    let count := words off nodeBase
    let seen := (total + count, if count = 1 then words off (nodeBase + 1) else last)
    if words off 1 = nullLink then some seen else chainTotal words fuel (words off 1) seen

/-- The end of `agfs_btree_remove_dup`: `remain` values are left. One goes back into the leaf; with
none the key goes. Otherwise the leaf has not changed, and its buffer is released. -/
def settle (leaf index remain last : Nat) (t : Tree K) : Tree K :=
  if remain = 1 then (t.setValue leaf index last).log env leaf
  else if remain = 0 then (t.removeAt leaf index).log env leaf
  else t

/-- `agfs_btree_remove_dup`. -/
def removeDup (leaf index value : Nat) (t : Tree K) : Option (Except Errno Unit × Tree K) :=
  match (t.disk.nodes leaf).pairs[index]? with
  | none => none
  | some (_, old) =>
    if linkType old = duplicateFragment then
      let off := linkOff old
      let base := slotBase (linkFrag old)
      match place (t.disk.words off) base value with
      | none => some (.error .enoent, t)
      | some i =>
        let w := dropAt (t.disk.words off) base i
        let t := t.rewrite env off w leaf
        some (.ok (), settle env leaf index (w base) (w (base + 1)) t)
    else if linkType old ≠ duplicateNode then some (.error .enoent, t)
    else
      match searchChain t.disk.words value t.hops (linkOff old) with
      | none => none
      | some none => some (.error .enoent, t)
      | some (some (off, i)) =>
        let t := t.rewrite env off (dropAt (t.disk.words off) nodeBase i) leaf
        match chainTotal t.disk.words t.hops (linkOff old) (0, 0) with
        | none => none
        | some (total, last) => some (.ok (), settle env leaf index total last t)

end

/-! ## What the functions can do -/

open BTree.Tree

section Inversion

variable {env : Env} {leaf index old value : Nat} {t u : Tree K}

end Inversion

end Argentum.Agfs.BTree
