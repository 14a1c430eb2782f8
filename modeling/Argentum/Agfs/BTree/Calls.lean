/-
# Agfs.BTree.Calls — descent, insertion with its splits, deletion, lookup and iteration

An interior node has a key and a child for each pair, and one more child, its overflow; the keys
of a child are at most the key beside it. A search goes down to one leaf. An insertion rebuilds
that leaf, or, if the pair does not fit, cuts its pairs in the middle, by number: the right half
goes to a new node at the end of the stream, and its parent takes the last key of the left half as
a separator, and may have to be cut in turn. A deletion takes the pair out of the leaf and does no
more: nodes are never joined.
-/
import Argentum.Agfs.BTree.Duplicates

namespace Argentum.Agfs.BTree

variable {K : Type} [TreeKey K]

/-! ## Search -/

/-- The loop of `agfs_btree_search_node_t` between `lo` and `hi`, the first not included. -/
def bisect (pairs : List (K × Nat)) (key : K) : Nat → Nat → Nat → Option Nat
  | 0, _, _ => none
  | fuel + 1, lo, hi =>
    if lo < hi then
      let mid := (lo + hi - 1) / 2
      match pairs[mid]? with
      | none => none
      | some pair =>
        if key = pair.1 then some mid
        else if key < pair.1 then bisect pairs key fuel lo mid
        else bisect pairs key fuel (mid + 1) hi
    else none

section

variable (pairs : List (K × Nat)) (overflow : Nat) (key : K)

/-- `agfs_btree_search_node_t`: where the key is. -/
def searchNode : Option Nat :=
  bisect pairs key (pairs.length + 1) 0 pairs.length

/-- `agfs_btree_pick_child_t`, in a node with this overflow. -/
def pickChild : Nat :=
  match pairs.getLast? with
  | none => overflow
  | some last =>
    if last.1 < key then overflow
    else
      match (pairs.take (maxPairs + 2)).find? fun pair => key ≤ pair.1 with
      | some pair => pair.2
      | none => last.2

/-- `agfs_btree_descend_t` from `off`, below the nodes `above`: the leaf, and the nodes above it,
nearest first. -/
def descend (d : Disk K) (key : K) : Nat → Nat → List Nat → Except Errno (Nat × List Nat)
  | 0, _, _ => .error .eio
  | fuel + 1, off, above =>
    let n := d.nodes off
    if maxPairs + 2 < n.pairs.length ∨ nodeSize - headerSize < keyBytes n.pairs then .error .eio
    else
      match n.overflow with
      | none => .ok (off, above)
      | some overflow =>
        descend d key fuel (pickChild n.pairs overflow key) (off :: above)

/-- The length of `path`. -/
def maxPath : Nat := 16

/-- `agfs_btree_read_header` and `agfs_btree_descend_t`. -/
def Disk.lookFor (d : Disk K) (key : K) : Except Errno (Nat × List Nat) :=
  descend d key maxPath d.header.root []

/-! ## Collecting pairs -/

/-- `agfs_btree_collect_t` with an insertion. It refuses a key that is there, and what is past
the end of the array; a full array with the key in its middle is written past its end. -/
def collectInsert (value : Nat) : Option (Except Errno (List (K × Nat))) :=
  let before := pairs.takeWhile (·.1 < key)
  let behind := pairs.dropWhile (·.1 < key)
  if maxPairs + 2 < pairs.length then some (.error .eexist)
  else if behind.head?.any (·.1 = key) then some (.error .eexist)
  else if maxPairs + 2 ≤ before.length then some (.error .eexist)
  else if maxPairs + 2 ≤ pairs.length then none
  else some (.ok (before ++ (key, value) :: behind))

/-! ## Splitting -/

/-- What a node is cut into. -/
structure Halves (K : Type) where
  sep : K
  leftPairs : List (K × Nat)
  leftOverflow : Option Nat
  rightPairs : List (K × Nat)
  rightOverflow : Option Nat

/-- The halves of a node with these pairs; nothing, if there are fewer than two. -/
def halve (overflow : Option Nat) : Option (Halves K) :=
  let cut := pairs.length / 2
  match overflow, (pairs.take cut).getLast?, pairs.drop cut with
  | none, some last, next :: rest => some ⟨last.1, pairs.take cut, none, next :: rest, none⟩
  | some o, some _, mid :: rest => some ⟨mid.1, pairs.take cut, some mid.2, rest, some o⟩
  | _, _, _ => none

variable (env : Env) (off : Nat) (n : Node K) (held : Nat)

/-- `agfs_btree_write_node`. -/
def writeNode (t : Tree K) : Tree K :=
  (t.setNode off n).logUnless env off held

/-- `agfs_btree_relink_left`. -/
def relinkLeft (off : Option Nat) (left held : Nat) (t : Tree K) : Tree K :=
  match off with
  | none => t
  | some off => (t.setNode off { t.disk.nodes off with left := some left }).logUnless env off held

/-- The two halves written; of leaves, the one that follows is linked to the new one. -/
def placeHalves (node right : Nat) (follows : Option Nat) (leftNode rightNode : Node K)
    (t : Tree K) : Tree K :=
  let t := writeNode env right rightNode node t
  let t := if rightNode.overflow.isNone then relinkLeft env follows right node t else t
  (t.setNode node leftNode).log env node

/-- The part of `agfs_btree_split` both cases share: the right half goes to a new node, the left
half stays. The new node's offset, or nothing, if a half does not fit. -/
def cleave (node : Nat) (h : Halves K) (t : Tree K) : Option (Except Errno Nat × Tree K) :=
  let old := t.disk.nodes node
  match grow env (some node) none t with
  | (.error e, t) => some (.error e, t)
  | (.ok right, t) =>
    -- an interior node has no links
    let links (off : Option Nat) := if h.rightOverflow.isNone then off else none
    match serialize h.leftPairs h.leftOverflow (links (some right)) (links old.left),
      serialize h.rightPairs h.rightOverflow (links old.right) (links (some node)) with
    | some leftNode, some rightNode =>
      some (.ok right, placeHalves env node right old.right leftNode rightNode t)
    | _, _ => none

/-- `agfs_btree_write_header`. -/
def writeHeader (h : Header) (t : Tree K) : Tree K :=
  if env.lost 0 t.size then t else (t.setHeader { h with maxSize := t.size }).log env 0

/-- The split node was the root: a new root with one separator and two children. -/
def newRoot (header : Header) (sep : K) (node right depth : Nat) (t : Tree K) :
    Except Errno Unit × Tree K :=
  match grow env none none t with
  | (.error e, t) => (.error e, t)
  | (.ok root, t) =>
    let t := (t.setNode root ⟨none, none, some right, [(sep, node)]⟩).log env root
    (.ok (), writeHeader env { header with root, maxDepth := max header.maxDepth (depth + 1) } t)

/-- The parent's pairs and overflow with the separator and the new right half beside `node`;
nothing, if `node` is not a child. -/
def addChild (parent : Node K) (sep : K) (node right : Nat) :
    Option (List (K × Nat) × Option Nat) :=
  match parent.pairs.dropWhile (·.2 ≠ node) with
  | (key, _) :: behind =>
    some (parent.pairs.takeWhile (·.2 ≠ node) ++ (sep, node) :: (key, right) :: behind,
      parent.overflow)
  | [] =>
    if parent.overflow = some node then some (parent.pairs ++ [(sep, node)], some right)
    else none

/-- The test whether a rebuilt parent fits, with its overflow among the values. -/
def parentFits : Bool :=
  align8 (headerSize + keyBytes pairs) + pairs.length * 2 + (pairs.length + 1) * 8 ≤ nodeSize

end

/-- `agfs_btree_split` of the node with these pairs, below the nodes `parents`. Nothing, if bytes
are written past a node or past the 1024 bytes for the parent's keys. -/
def split (env : Env) (header : Header) (depth : Nat) :
    List (K × Nat) → Option Nat → Nat → List Nat → Tree K → Option (Except Errno Unit × Tree K)
  | pairs, overflow, node, parents, t =>
    match halve pairs overflow with
    | none => some (.error .eio, t)
    | some h =>
      match cleave env node h t with
      | none => none
      | some (.error e, t) => some (.error e, t)
      | some (.ok right, t) =>
        match parents with
        | [] => some (newRoot env header h.sep node right depth t)
        | above :: parents =>
          let parent := t.disk.nodes above
          if maxPairs + 2 < parent.pairs.length then some (.error .enospc, t)
          else
            match addChild parent h.sep node right with
            | none => some (.error .eio, t)
            | some (pairs, overflow) =>
              if nodeSize < keyBytes parent.pairs + keylen h.sep
                  ∨ maxPairs + 2 < pairs.length then none
              else if parentFits pairs then
                (serialize pairs overflow none none).map fun n =>
                  (.ok (), (t.setNode above n).log env above)
              else split env header depth pairs overflow above parents t

/-! ## What a split can do -/

section Inversion

variable {env : Env} {t u : Tree K} {h : Halves K}

def Halves.leftNode (h : Halves K) (old : Node K) (right : Nat) : Node K :=
  if h.rightOverflow.isNone then ⟨old.left, some right, h.leftOverflow, h.leftPairs⟩
  else ⟨none, none, h.leftOverflow, h.leftPairs⟩

def Halves.rightNode (h : Halves K) (old : Node K) (node : Nat) : Node K :=
  if h.rightOverflow.isNone then ⟨some node, old.right, h.rightOverflow, h.rightPairs⟩
  else ⟨none, none, h.rightOverflow, h.rightPairs⟩

variable {header : Header} {depth : Nat} {overflow : Option Nat} {node : Nat}
  {pairs : List (K × Nat)} {parents : List Nat} {r : Except Errno Unit}

end Inversion

/-! ## The calls -/

/-- `agfs_btree_insert_impl_t`. -/
def insertImpl (env : Env) (key : K) (value : Nat) (allowDups : Bool) (t : Tree K) :
    Option (Except Errno Unit × Tree K) :=
  if keylen key = 0 then some (.error .einval, t)
  else
    match t.disk.lookFor key with
    | .error e => some (.error e, t)
    | .ok (leaf, parents) =>
      let n := t.disk.nodes leaf
      match if allowDups then searchNode n.pairs key else none with
      | some index => insertDup env leaf index value t
      | none =>
        match collectInsert n.pairs key value with
        | none => none
        | some (.error e) => some (.error e, t)
        | some (.ok pairs) =>
          if nodeRoom n.pairs (keylen key) then
            (serialize pairs none n.right n.left).map fun n =>
              (.ok (), (t.setNode leaf n).log env leaf)
          else split env t.disk.header (parents.length + 1) pairs none leaf parents t

/-- `agfs_btree_insert`. -/
def insert (env : Env) (name : K) (ino : UInt32) (t : Tree K) :
    Option (Except Errno Unit × Tree K) :=
  insertImpl env name ino.toNat false t

/-- `agfs_btree_insert_value`. -/
def insertValue (env : Env) (key : K) (value : Nat) (t : Tree K) :
    Option (Except Errno Unit × Tree K) :=
  insertImpl env key value true t

/-- `agfs_btree_delete`. -/
def delete (env : Env) (name : K) (t : Tree K) : Except Errno Unit × Tree K :=
  if keylen name = 0 then (.error .einval, t)
  else
    match t.disk.lookFor name with
    | .error e => (.error e, t)
    | .ok (leaf, _) =>
      match searchNode (t.disk.nodes leaf).pairs name with
      | none => (.error .enoent, t)
      | some index => (.ok (), (t.removeAt leaf index).log env leaf)

/-- `agfs_btree_delete_value`. -/
def deleteValue (env : Env) (key : K) (value : Nat) (t : Tree K) :
    Option (Except Errno Unit × Tree K) :=
  if keylen key = 0 then some (.error .enoent, t)
  else
    match t.disk.lookFor key with
    | .error e => some (.error e, t)
    | .ok (leaf, _) =>
      match searchNode (t.disk.nodes leaf).pairs key with
      | none => some (.error .enoent, t)
      | some index =>
        match (t.disk.nodes leaf).pairs[index]? with
        | none => none
        | some (_, old) =>
          if linkType old ≠ 0 then removeDup env leaf index value t
          else if old ≠ value then some (.error .enoent, t)
          else some (.ok (), (t.removeAt leaf index).log env leaf)

/-! ## What the calls can do -/

section Calls

variable {env : Env} {key : K} {value : Nat} {t u : Tree K} {r : Except Errno Unit}

end Calls

/-! ## Calls that change a tree -/

inductive Call (K : Type) where
  | insert (name : K) (ino : UInt32)
  | delete (name : K)
  | insertValue (key : K) (value : Nat)
  | deleteValue (key : K) (value : Nat)

def Call.perform (env : Env) : Call K → Tree K → Option (Except Errno Unit × Tree K)
  | .insert name ino => BTree.insert env name ino
  | .delete name => fun t => some (BTree.delete env name t)
  | .insertValue key value => BTree.insertValue env key value
  | .deleteValue key value => BTree.deleteValue env key value

/-- A tree as it is made: a header, and a root that is an empty leaf. -/
def Tree.fresh {K : Type} : Tree K :=
  opened ⟨⟨nodeSize, 1, 2 * nodeSize⟩, fun _ => Node.empty, fun _ _ => 0⟩ (2 * nodeSize) []

/-- The calls one after another, whatever they return. -/
def calls (t : Tree K) (made : Env × Call K) : Option (Tree K) :=
  (made.2.perform made.1 t).map Prod.snd

end Argentum.Agfs.BTree
