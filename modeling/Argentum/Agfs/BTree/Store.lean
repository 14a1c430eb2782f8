/-
# Agfs.BTree.Store — a tree's stream: its header, its nodes and the buffers they are in

A tree is the data stream of an inode. Offset 0 holds the header, every later multiple of 1024
one node: a tree node (`Node`, its keys and values in order), or a node of the duplicate machinery,
which the code reads as an array of 64-bit words. Nodes are 1024 bytes, blocks 1024, 2048 or 4096,
so that several nodes share one buffer; `logged` keeps every block as it was last handed to
`agfs_log_write_block`, and a block is `Clean` if nothing was written to its buffer since.

A node is laid out as a header of 28 bytes, its keys, the index of key ends and the values. If
what `agfs_btree_serialize` is given does not fit, it writes past the node; the model has no
state for that.
-/
import Argentum.Kernel.Errno
import Mathlib.Data.List.Basic
import Mathlib.Algebra.GroupWithZero.Nat
import Mathlib.Order.Lattice

namespace Argentum.Agfs.BTree

/-- `AGFS_BTREE_NODE_SIZE`. -/
def nodeSize : Nat := 1024

/-- `AGFS_BTREE_MAX_PAIRS`. -/
def maxPairs : Nat := 128

/-- `sizeof(struct agfs_btree_node)`. -/
def headerSize : Nat := 28

/-- Keys as the tree sees them: what `agfs_btree_key_cmp` says of two, and how long one is. -/
class TreeKey (K : Type) extends LinearOrder K where
  keylen : K → Nat

export TreeKey (keylen)

/-- A node; `none` is `AGFS_BTREE_NULL`, and a leaf has no `overflow`. -/
structure Node (K : Type) where
  left : Option Nat
  right : Option Nat
  overflow : Option Nat
  pairs : List (K × Nat)

namespace Node

def empty {K : Type} : Node K := ⟨none, none, none, []⟩

end Node

structure Header where
  root : Nat
  maxDepth : Nat
  maxSize : Nat
  deriving DecidableEq

/-- The contents of the stream: the tree nodes, and the words of the other nodes. -/
structure Disk (K : Type) where
  header : Header
  nodes : Nat → Node K
  words : Nat → Nat → Nat

/-- A tree and its buffers. -/
structure Tree (K : Type) where
  disk : Disk K
  /-- Every block as it was last written to the log. -/
  logged : Disk K
  /-- `i_size`, 32 bits. -/
  size : Nat
  /-- The nodes handed out for fragments and not converted since. The code keeps no such list. -/
  fragments : List Nat

/-- What a call meets outside the tree. -/
structure Env where
  /-- `s_blocksize`. -/
  blocksize : Nat
  /-- What `bmap` answers if it finds no block to write at this offset. -/
  refusal : Nat → Option Errno
  /-- Whether a read of this offset fails while the stream has this size, where the code passes
  over the failure. -/
  lost : Nat → Nat → Bool

namespace Env

def sameBlock (env : Env) (a b : Nat) : Bool := a / env.blocksize == b / env.blocksize

end Env

variable {K : Type}

namespace Disk

/-- One block taken over from `new`. -/
def takeBlock (blocksize block : Nat) (d new : Disk K) : Disk K where
  header := if block = 0 then new.header else d.header
  nodes off := if off / blocksize = block then new.nodes off else d.nodes off
  words off := if off / blocksize = block then new.words off else d.words off

structure SameBlock (blocksize block : Nat) (d e : Disk K) : Prop where
  header : block = 0 → d.header = e.header
  nodes : ∀ off, off / blocksize = block → d.nodes off = e.nodes off
  words : ∀ off, off / blocksize = block → d.words off = e.words off

end Disk

namespace Tree

/-- A tree at the start of a call: what the log has of its blocks is what they hold. -/
def opened (disk : Disk K) (size : Nat) (fragments : List Nat) : Tree K :=
  ⟨disk, disk, size, fragments⟩

section

variable (t : Tree K) (env : Env) (off : Nat) (w : Nat → Nat) (held : Nat)

def setNode (n : Node K) : Tree K :=
  { t with disk := { t.disk with nodes := Function.update t.disk.nodes off n } }

def setWords : Tree K :=
  { t with disk := { t.disk with words := Function.update t.disk.words off w } }

def setHeader (h : Header) : Tree K :=
  { t with disk := { t.disk with header := h } }

/-- `header->max_size = i_size`. -/
def setMaxSize : Tree K := t.setHeader { t.disk.header with maxSize := t.size }

/-- `values[index] = value`. -/
def setValue (off index value : Nat) : Tree K :=
  let n := t.disk.nodes off
  t.setNode off { n with pairs := n.pairs.modify index fun pair => (pair.1, value) }

/-- `agfs_btree_remove_at`. -/
def removeAt (off index : Nat) : Tree K :=
  let n := t.disk.nodes off
  t.setNode off { n with pairs := n.pairs.eraseIdx index }

/-- `agfs_log_write_block` on the buffer of the node at `off`. -/
def log (t : Tree K) (env : Env) (off : Nat) : Tree K :=
  { t with logged := t.logged.takeBlock env.blocksize (off / env.blocksize) t.disk }

/-- The buffer of `off` is written to the log, unless it is the one of `held`: that one is left
to the caller. -/
def logUnless (off held : Nat) : Tree K :=
  if env.sameBlock off held then t else t.log env off

/-- The words of a node changed, in the buffer of `held` or in its own, which is then written. -/
def rewrite : Tree K :=
  (t.setWords off w).logUnless env off held

end

section Fields

variable (t : Tree K) (env : Env) (off held : Nat) (n : Node K) (w : Nat → Nat)

@[simp] theorem setNode_nodes :
    (t.setNode off n).disk.nodes = Function.update t.disk.nodes off n := rfl

@[simp] theorem setWords_words :
    (t.setWords off w).disk.words = Function.update t.disk.words off w := rfl
@[simp] theorem log_disk : (t.log env off).disk = t.disk := rfl

end Fields

/-- Every change to this block is in the log. -/
def Clean (t : Tree K) (env : Env) (block : Nat) : Prop :=
  t.disk.SameBlock env.blocksize block t.logged

end Tree

/-! ## Sizes -/

section Sizes

variable [TreeKey K]

/-- `(n + 7) & ~7`. -/
def align8 (n : Nat) : Nat := (n + 7) / 8 * 8

variable (pairs : List (K × Nat)) (overflow right left : Option Nat)

/-- `all_key_length` of a node with these pairs. -/
def keyBytes : Nat := (pairs.map fun pair => keylen pair.1).sum

/-- The bytes a node with these pairs takes. -/
def nodeBytes : Nat :=
  align8 (headerSize + keyBytes pairs) + pairs.length * 2 + pairs.length * 8

/-- `agfs_btree_node_room`. -/
def nodeRoom (klen : Nat) : Bool :=
  let count := pairs.length + 1
  count ≤ maxPairs + 1 &&
    align8 (headerSize + keyBytes pairs + klen) + count * 2 + count * 8 ≤ nodeSize

/-- `agfs_btree_serialize`; nothing, if the node does not fit. -/
def serialize : Option (Node K) :=
  if nodeBytes pairs ≤ nodeSize then some ⟨left, right, overflow, pairs⟩ else none

end Sizes

/-! ## Growing the stream -/

/-- `i_size += AGFS_BTREE_NODE_SIZE`, in 32 bits. -/
def sizeAfter (size : Nat) : Nat := (size + nodeSize) % 2 ^ 32

/-- `agfs_btree_grow`, called with the buffer of `held` and with the block of `locked` locked. The
header's `max_size` is set through the held buffer if that has the header; if the header's block
cannot be read it stays as it was. -/
def grow (env : Env) (held locked : Option Nat) (t : Tree K) : Except Errno Nat × Tree K :=
  match env.refusal t.size with
  | some e => (.error e, t)
  | none =>
    let off := t.size
    let t := { t with size := sizeAfter t.size }
    if held.any (env.sameBlock 0) then (.ok off, t.setMaxSize)
    else if locked.any (env.sameBlock 0) || env.lost 0 t.size then (.ok off, t)
    else (.ok off, t.setMaxSize.log env 0)

section Grow

variable {env : Env} {held locked : Option Nat} {t u : Tree K}

end Grow

end Argentum.Agfs.BTree
