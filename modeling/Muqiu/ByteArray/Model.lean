import Muqiu.Lib.Window

/-!
# The chunked byte buffer

`ByteArray` keeps its bytes in a singly linked list of blocks of `m_baseSize` bytes each.
`m_cur` points at the block the cursor `m_position` is in, and is null when the cursor
stands at the end of the capacity.  The linked list is a list of blocks here and `m_cur` an
index into it, `none` for the null pointer; `m_cur = m_cur->next` adds one to the index.

`new char[size]` does not initialise a block.  What a new block holds is an argument of
every operation that can allocate: `mem j` is the `j`-th byte of the memory that call
obtains.  `std::out_of_range` and reading through a null `m_cur` are the two ways a call
can fail, and both throw before anything is assigned.  Sizes are natural numbers; a
subtraction that a `size_t` would wrap is `sizeSub`.
-/

namespace Muqiu

open Window

/-- Subtraction of `size_t`, which wraps around below zero. -/
def sizeSub (a b : Nat) : Nat := if b ≤ a then a - b else a + 2 ^ 64 - b

theorem sizeSub_of_le {a b : Nat} (h : b ≤ a) : sizeSub a b = a - b := by
  rw [sizeSub, if_pos h]

/-- How a call on a `ByteArray` fails. -/
inductive Fault where
  /-- `throw std::out_of_range(what)` -/
  | outOfRange (what : String)
  /-- `m_cur` or a `next` is null where it is dereferenced. -/
  | nullCur
deriving DecidableEq, Repr

/-- `SYLAR_LITTLE_ENDIAN` and `SYLAR_BIG_ENDIAN`. -/
inductive Endian where
  | little
  | big
deriving DecidableEq, Repr

namespace ByteArray

/-- `Node`: the bytes its `ptr` owns.  Its `size` is their number. -/
abbrev Node := List UInt8

end ByteArray

/-- The state of a `ByteArray`. -/
structure ByteArray where
  /-- Size of one block. -/
  m_baseSize : Nat
  /-- The cursor. -/
  m_position : Nat
  /-- Bytes in all blocks together. -/
  m_capacity : Nat
  /-- Bytes of data. -/
  m_size : Nat
  /-- Byte order of the fixed-width codecs. -/
  m_endian : Endian
  /-- The blocks, from the first one on. -/
  m_root : List ByteArray.Node
  /-- The block of the cursor, `none` when it is null. -/
  m_cur : Option Nat
deriving DecidableEq, Repr

namespace ByteArray

/-- `count` new blocks of `b` bytes, over the memory the call obtains. -/
def newNodes (mem : Nat → UInt8) (b count : Nat) : List Node :=
  (List.range count).map fun i => (List.range b).map fun j => mem (i * b + j)

/-- The constructor: one block, big endian, cursor at the start. -/
def new (mem : Nat → UInt8) (base_size : Nat) : ByteArray where
  m_baseSize := base_size
  m_position := 0
  m_capacity := base_size
  m_size := 0
  m_endian := .big
  m_root := newNodes mem base_size 1
  m_cur := some 0

/-- Whether numbers are written with the low byte first. -/
def isLittleEndian (s : ByteArray) : Bool := s.m_endian = .little

/-- The byte order of the numbers that follow. -/
def setIsLittleEndian (s : ByteArray) (val : Bool) : ByteArray :=
  if val then { s with m_endian := .little } else { s with m_endian := .big }

/-- The cursor. -/
def getPosition (s : ByteArray) : Nat := s.m_position

/-- How much has been written. -/
def getSize (s : ByteArray) : Nat := s.m_size

/-- Bytes between the cursor and the end of the data. -/
def getReadSize (s : ByteArray) : Nat := sizeSub s.m_size s.m_position

/-- Bytes between the cursor and the end of the capacity. -/
def getCapacity (s : ByteArray) : Nat := sizeSub s.m_capacity s.m_position

/-- The pointer to block `i`, null past the last block. -/
def nodeAt (s : ByteArray) (i : Nat) : Option Nat :=
  if i < s.m_root.length then some i else none

/-- `clear`: back to one block, whose bytes stay. -/
def clear (s : ByteArray) : ByteArray :=
  { s with
    m_position := 0
    m_size := 0
    m_capacity := s.m_baseSize
    m_root := s.m_root.take 1
    m_cur := some 0 }

/-- `addCapacity`: append as many blocks as `size` bytes after the cursor still need. -/
def addCapacity (mem : Nat → UInt8) (s : ByteArray) (size : Nat) : ByteArray :=
  if size = 0 then s
  else
    let old_cap := s.getCapacity
    if old_cap ≥ size then s
    else
      let count := (size - old_cap + s.m_baseSize - 1) / s.m_baseSize
      { s with
        m_root := s.m_root ++ newNodes mem s.m_baseSize count
        m_capacity := s.m_capacity + count * s.m_baseSize
        m_cur := if old_cap = 0 then some s.m_root.length else s.m_cur }

/-- The loop of `write` over the blocks from `m_cur` on: the blocks it leaves behind and
how often it moves `m_cur` to the next one. -/
def writeLoop : List Node → Nat → List UInt8 → Option (List Node × Nat)
  | [], _, _ => none
  | nd :: rest, npos, buf =>
      let ncap := nd.length - npos
      if ncap ≥ buf.length then
        some (overwrite nd npos buf :: rest, if nd.length = npos + buf.length then 1 else 0)
      else
        (writeLoop rest 0 (buf.drop ncap)).map fun r =>
          (overwrite nd npos (buf.take ncap) :: r.1, r.2 + 1)

/-- `write(buf, size)`: overwrite at the cursor and extend. -/
def write (mem : Nat → UInt8) (s : ByteArray) (buf : List UInt8) : Except Fault ByteArray :=
  if buf.length = 0 then .ok s
  else
    let s := s.addCapacity mem buf.length
    match s.m_cur with
    | none => .error .nullCur
    | some c =>
        match writeLoop (s.m_root.drop c) (s.m_position % s.m_baseSize) buf with
        | none => .error .nullCur
        | some (nodes, moved) =>
            let pos := s.m_position + buf.length
            .ok { s with
              m_root := s.m_root.take c ++ nodes
              m_position := pos
              m_size := if pos > s.m_size then pos else s.m_size
              m_cur := s.nodeAt (c + moved) }

/-- The loop of `read` over the blocks from `m_cur` on: the bytes it copies and how often it
moves `m_cur` to the next one. -/
def readLoop : List Node → Nat → Nat → Option (List UInt8 × Nat)
  | [], _, _ => none
  | nd :: rest, npos, size =>
      let ncap := nd.length - npos
      if ncap ≥ size then
        some (window nd npos size, if nd.length = npos + size then 1 else 0)
      else
        (readLoop rest 0 (size - ncap)).map fun r => (window nd npos ncap ++ r.1, r.2 + 1)

/-- `read(buf, size)`: copy from the cursor and advance. -/
def read (s : ByteArray) (size : Nat) : Except Fault (List UInt8 × ByteArray) :=
  if size > s.getReadSize then .error (.outOfRange "not enough len")
  else
    match s.m_cur with
    | none => .error .nullCur
    | some c =>
        match readLoop (s.m_root.drop c) (s.m_position % s.m_baseSize) size with
        | none => .error .nullCur
        | some (bytes, moved) =>
            .ok (bytes, { s with
              m_position := s.m_position + size
              m_cur := s.nodeAt (c + moved) })

/-- `read(buf, size, position) const`.  The walk starts at `m_cur`, whatever `position`. -/
def readAt (s : ByteArray) (size position : Nat) : Except Fault (List UInt8) :=
  if size > sizeSub s.m_size position then .error (.outOfRange "not enough len")
  else
    match s.m_cur with
    | none => .error .nullCur
    | some c =>
        match readLoop (s.m_root.drop c) (position % s.m_baseSize) size with
        | none => .error .nullCur
        | some (bytes, _) => .ok bytes

/-- The walk of `setPosition` from the first block: how many blocks it goes on by. -/
def seekLoop : List Node → Nat → Option Nat
  | [], _ => none
  | nd :: rest, v =>
      if v > nd.length then (seekLoop rest (v - nd.length)).map (· + 1)
      else some (if v = nd.length then 1 else 0)

/-- The cursor to an offset up to the capacity, by a walk over the blocks.  The size grows with
it. -/
def setPosition (s : ByteArray) (v : Nat) : Except Fault ByteArray :=
  if v > s.m_capacity then .error (.outOfRange "set_position out of range")
  else
    match seekLoop s.m_root v with
    | none => .error .nullCur
    | some moved =>
        .ok { s with
          m_position := v
          m_size := if v > s.m_size then v else s.m_size
          m_cur := s.nodeAt moved }

/-- `toString`: the bytes from the cursor to the end of the data. -/
def toString (s : ByteArray) : Except Fault (List UInt8) :=
  if s.getReadSize = 0 then .ok []
  else s.readAt s.getReadSize s.m_position

/-! ## Calls and runs -/

/-- A call of the byte interface. -/
inductive Op where
  | write (buf : List UInt8)
  | read (n : Nat)
  | setPosition (v : Nat)
  | clear
  | getReadSize
  | getSize
  | toString
deriving DecidableEq, Repr

/-- What a call gives its caller. -/
inductive Res where
  | unit
  | bytes (bs : List UInt8)
  | size (n : Nat)
  | outOfRange (what : String)
deriving DecidableEq, Repr

/-- A call whose `std::out_of_range` its caller catches.  It leaves the state as it was. -/
def caught (s : ByteArray) : Except Fault (Res × ByteArray) → Option (Res × ByteArray)
  | .ok r => some r
  | .error (.outOfRange what) => some (.outOfRange what, s)
  | .error .nullCur => none

/-- One call.  `none` is a null dereference. -/
def call (mem : Nat → UInt8) (s : ByteArray) : Op → Option (Res × ByteArray)
  | .write buf => caught s ((s.write mem buf).map fun s' => (.unit, s'))
  | .read n => caught s ((s.read n).map fun r => (.bytes r.1, r.2))
  | .setPosition v => caught s ((s.setPosition v).map fun s' => (.unit, s'))
  | .clear => some (.unit, s.clear)
  | .getReadSize => some (.size s.getReadSize, s)
  | .getSize => some (.size s.getSize, s)
  | .toString => caught s (s.toString.map fun bs => (.bytes bs, s))

/-- A sequence of calls, each with the memory it obtains, and their results in order. -/
def run (s : ByteArray) : List (Op × (Nat → UInt8)) → Option (List Res × ByteArray)
  | [] => some ([], s)
  | (op, mem) :: calls => do
      let (res, s') ← s.call mem op
      let (ress, s'') ← run s' calls
      some (res :: ress, s'')

end ByteArray

end Muqiu
