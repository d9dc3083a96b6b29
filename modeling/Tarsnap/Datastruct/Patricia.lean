import Mathlib.Data.List.Basic

/-!
# Patricia trees

A Patricia tree maps byte strings to records. A node holds the bytes of the key since its parent
and the bit after them at which its children differ. The tree can be thought of as operating on
bytes of nine bits, where the ninth bit says that the key continues: a node with the mask zero
splits on that bit, and its left child is then the record of the key thus far. A long key takes a
chain of nodes, so an insertion can fail after some of them are there.
-/

namespace Tarsnap.Datastruct

/-- The maximum number of key bytes stored in a node. -/
structure NodeSize where
  /-- The bound. -/
  MAXSLEN : Nat
  /-- A node can hold a byte. -/
  positive : 0 < MAXSLEN
  /-- The length fits its field. -/
  fits : MAXSLEN < 256

/-- What a node stores besides its children. -/
structure NodeData where
  /-- Critical bit mask. -/
  mask : UInt8
  /-- High bits of this node. -/
  high : UInt8
  /-- Bytes since the bytes of the parent. -/
  s : List UInt8
deriving DecidableEq

/-- The length of the bytes. -/
def NodeData.slen (d : NodeData) : Nat := d.s.length

/-- A pointer to a node, perhaps null. The left pointer of the source is `record` in a node with
the mask zero, and `left` in any other. -/
inductive Pnode (ρ : Type) where
  /-- No node. -/
  | null
  /-- A node. -/
  | node (data : NodeData) (record : Option ρ) (left right : Pnode ρ)

/-- A tree with the length of the longest key. -/
structure Patricia (ρ : Type) where
  /-- Root node of the tree. -/
  root : Pnode ρ
  /-- Longest key length. -/
  maxkey : Nat

section Bits

/-- The bits of a byte that are above a mask. -/
def topBits (mask : UInt8) : UInt8 := (-mask) <<< 1

/-- The values that a critical bit mask takes in its loop. -/
def criticalBits : List UInt8 := [0x80, 0x40, 0x20, 0x10, 0x08, 0x04, 0x02, 0x01]

/-- Figure out which bit is the first that is set. -/
def mismatchBit (mm : UInt8) : UInt8 :=
  (criticalBits.find? fun mask => mm &&& mask ≠ 0).getD 0

/-- Compare a key to a node, from the byte `i` on. There is no result if the node is a prefix of
the key, and otherwise the number of matching bytes and the bit where there is a mismatch, which
is zero if the key is a prefix of the node. -/
def compareFrom (mask high : UInt8) : List UInt8 → List UInt8 → Nat → Option (Nat × UInt8)
  | [], key, i =>
    if mask = 0 then none
    else
      match key with
      | [] => some (i, 0)
      | b :: _ =>
        let mm := (high ^^^ b) &&& topBits mask
        if mm = 0 then none else some (i, mismatchBit mm)
  | _ :: _, [], i => some (i, 0)
  | c :: s, b :: key, i =>
    let mm := c ^^^ b
    if mm = 0 then compareFrom mask high s key (i + 1) else some (i, mismatchBit mm)

/-- Compare the given key to the given node. -/
def compare (d : NodeData) (key : List UInt8) : Option (Nat × UInt8) :=
  compareFrom d.mask d.high d.s key 0

end Bits

section Insert

variable {ρ : Type}

/-- The number of nodes on the longest way down. -/
def Pnode.depth : Pnode ρ → Nat
  | null => 0
  | node _ _ left right => max left.depth right.depth + 1

/-- A node with no children, no mask and no high bits. The length is a byte. -/
def nodeAlloc (slen : Nat) (s : List UInt8) : NodeData := ⟨0, 0, s.take (slen % 256)⟩

/-- A duplicate of the data of a node with other bytes. -/
def nodeDup (d : NodeData) (slen : Nat) (s : List UInt8) : NodeData :=
  { d with s := s.take (slen % 256) }

/-- The node above the two parts of a split node, if the key has the byte that it looks at. -/
def splitNode (d : NodeData) (record : Option ρ) (left right : Pnode ρ) (key : List UInt8)
    (mlen : Nat) (mask : UInt8) : Option (NodeData × Pnode ρ × Pnode ρ) :=
  let lower := Pnode.node (nodeDup d (d.slen - mlen) (d.s.drop mlen)) record left right
  let upper := { nodeAlloc mlen key with mask }
  if mask = 0 then some (upper, .null, lower)
  else
    match key[mlen]? with
    | none => none
    | some b =>
      let upper := { upper with high := b &&& topBits mask }
      -- The mask is the bit where the key and the node differ.
      if b &&& mask ≠ 0 then some (upper, lower, .null) else some (upper, .null, lower)

/-- Strip off the matching part of the key, and store the record or go on in a child. There is no
result if a byte after the key is read. -/
def descend (rec : ρ) (next : Pnode ρ → List UInt8 → Option (Int × Pnode ρ)) (d : NodeData)
    (record : Option ρ) (left right : Pnode ρ) (key : List UInt8) : Option (Int × Pnode ρ) :=
  let key := key.drop d.slen
  if d.mask = 0 then
    match key with
    | [] =>
      match record with
      | none => some (0, .node d (some rec) left right)
      | some _ => some (1, .node d record left right)
    | _ :: _ => (next right key).map fun found => (found.1, .node d record left found.2)
  else
    match key with
    | [] => none
    | b :: _ =>
      if b &&& d.mask ≠ 0 then
        (next right key).map fun found => (found.1, .node d record left found.2)
      else (next left key).map fun found => (found.1, .node d record found.2 right)

/-- Split a node that is not a prefix of the key, and go on below it. The number of allocations
so far is `n`. -/
def insertNode (rec : ρ) (malloc : Nat → Bool)
    (next : Nat → Pnode ρ → List UInt8 → Option (Int × Pnode ρ)) (n : Nat) (d : NodeData)
    (record : Option ρ) (left right : Pnode ρ) (key : List UInt8) : Option (Int × Pnode ρ) :=
  match compare d key with
  | none => descend rec (next n) d record left right key
  | some (mlen, mask) =>
    if malloc n then
      if malloc (n + 1) then
        match splitNode d record left right key mlen mask with
        | none => none
        | some (upper, left, right) => descend rec (next (n + 2)) upper none left right key
      else some (-1, .node d record left right)
    else some (-1, .node d record left right)

/-- The rounds of the loop, with a bound on their number. A round starts at a pointer to a node,
and makes one with up to `MAXSLEN` bytes of the key if there is none. -/
def insertLoop (size : NodeSize) (rec : ρ) (malloc : Nat → Bool) :
    Nat → Nat → Pnode ρ → List UInt8 → Option (Int × Pnode ρ)
  | 0, _, _, _ => none
  | rounds + 1, n, .null, key =>
    if malloc n then
      insertNode rec malloc (insertLoop size rec malloc rounds) (n + 1)
        (nodeAlloc (min key.length size.MAXSLEN) key) none .null .null key
    else some (-1, .null)
  | rounds + 1, n, .node d record left right, key =>
    insertNode rec malloc (insertLoop size rec malloc rounds) n d record left right key

/-- An empty tree. -/
def patriciaInit : Patricia ρ := ⟨.null, 0⟩

/-- A call that associates a key with a record, and which of its allocations succeed. -/
structure Insertion (ρ : Type) where
  /-- The key. -/
  key : List UInt8
  /-- The record, which is not null. -/
  record : ρ
  /-- Whether the allocation of this number succeeds. -/
  malloc : Nat → Bool

/-- Insert a record. The code is 0 on success, 1 if the key already exists and -1 on error. -/
def patriciaInsert (size : NodeSize) (P : Patricia ρ) (call : Insertion ρ) :
    Option (Int × Patricia ρ) :=
  let maxkey := max P.maxkey call.key.length
  (insertLoop size call.record call.malloc (P.root.depth + call.key.length + 1) 0 P.root
    call.key).map fun found => (found.1, ⟨found.2, maxkey⟩)

end Insert

section Lookup

variable {ρ : Type}

/-- The record of a key below a node, if there is one. There is no result if a byte after the key
is read. -/
def lookupNode : Pnode ρ → List UInt8 → Option (Option ρ)
  | .null, _ => some none
  | .node d record left right, key =>
    match compare d key with
    | some _ => some none
    | none =>
      if d.mask = 0 then
        match key.drop d.slen with
        | [] => some record
        | b :: rest => lookupNode right (b :: rest)
      else
        match key.drop d.slen with
        | [] => none
        | b :: rest =>
          if b &&& d.mask ≠ 0 then lookupNode right (b :: rest) else lookupNode left (b :: rest)

/-- The record of a key. -/
def patriciaLookup (P : Patricia ρ) (key : List UInt8) : Option (Option ρ) :=
  lookupNode P.root key

end Lookup

section Foreach

variable {ρ σ : Type}

/-- Copy bytes into a buffer, if they are inside it. -/
def memcpy (buffer : List UInt8) (pos : Nat) (s : List UInt8) : Option (List UInt8) :=
  if pos + s.length ≤ buffer.length then
    some (buffer.take pos ++ s ++ buffer.drop (pos + s.length))
  else none

/-- Call a function on the record of a node, if it has one. -/
def callRecord (func : σ → List UInt8 → ρ → Int × σ) (record : Option ρ) (cookie : σ)
    (keybuf : List UInt8) (keypos : Nat) : Int × σ × List UInt8 :=
  match record with
  | none => (0, cookie, keybuf)
  | some rec =>
    let called := func cookie (keybuf.take keypos) rec
    (called.1, called.2, keybuf)

/-- Call a function on all records under a node, with the buffer that holds the key prefix. There
is no result if a byte outside the buffer is written. -/
def foreachInternal (func : σ → List UInt8 → ρ → Int × σ) :
    Pnode ρ → σ → List UInt8 → Nat → Option (Int × σ × List UInt8)
  | .null, cookie, keybuf, _ => some (0, cookie, keybuf)
  | .node d record left right, cookie, keybuf, keypos => do
    let keybuf ← memcpy keybuf keypos d.s
    let keypos := keypos + d.slen
    let found ← (if d.mask = 0 then some (callRecord func record cookie keybuf keypos)
      else foreachInternal func left cookie keybuf keypos)
    if found.1 ≠ 0 then some found
    else foreachInternal func right found.2.1 found.2.2 keypos

/-- Traverse the tree. The allocation of the buffer gives memory with any contents, or fails. -/
def patriciaForeach (P : Patricia ρ) (func : σ → List UInt8 → ρ → Int × σ) (cookie : σ)
    (malloc : Option (Nat → UInt8)) : Option (Int × σ) :=
  match malloc with
  | none =>
    if 0 < P.maxkey then some (-1, cookie)
    else (foreachInternal func P.root cookie [] 0).map fun found => (found.1, found.2.1)
  | some contents =>
    (foreachInternal func P.root cookie ((List.range P.maxkey).map contents) 0).map
      fun found => (found.1, found.2.1)

end Foreach

end Tarsnap.Datastruct
