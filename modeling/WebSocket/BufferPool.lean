/-
WebSocket/BufferPool.lean

A pool of buffers for reading.

Buffers are lent out empty.  One that comes back is kept for the next reader,
unless enough are kept already.  Only the number of idle buffers can be seen from
outside, as nothing is left in them.

`Lending` numbers the buffers that are lent out and holds what has been written
into them.
-/
import WebSocket.Bytes

namespace WebSocket

/-- A pool of buffers. -/
structure BufferPool where
  /-- The number of buffers that wait to be lent out. -/
  idle : Nat := 0
  deriving DecidableEq, Repr, Inhabited

namespace BufferPool

/-- The most idle buffers that are kept. -/
def maxIdle : Nat := 64

/-- Lends out a buffer: an idle one, or else a new one. -/
def acquire (p : BufferPool) : BufferPool :=
  { idle := p.idle - 1 }

/-- Takes a buffer back. -/
def release (p : BufferPool) : BufferPool :=
  if p.idle < maxIdle then { idle := p.idle + 1 } else p

end BufferPool

/-- A pool and the buffers that it has lent out. -/
structure Lending where
  pool : BufferPool := {}
  /-- The buffers by number: what they hold, or `none` for one that is back. -/
  buffers : Array (Option Bytes) := #[]
  deriving Repr, Inhabited

namespace Lending

/-- Lends out a buffer under the next number. -/
def acquire (l : Lending) : Lending :=
  { pool := l.pool.acquire, buffers := l.buffers.push (some []) }

/-- What a buffer holds. -/
def contents (l : Lending) (id : Nat) : Option Bytes :=
  (l.buffers[id]?).join

/-- Writes behind what a buffer holds. -/
def write (l : Lending) (id : Nat) (octets : Bytes) : Lending :=
  match l.contents id with
  | some held => { l with buffers := l.buffers.setIfInBounds id (some (held ++ octets)) }
  | none => l

/-- Takes a buffer back, if it is lent out. -/
def release (l : Lending) (id : Nat) : Lending :=
  match l.contents id with
  | some _ => { pool := l.pool.release, buffers := l.buffers.setIfInBounds id none }
  | none => l

/-- Takes all buffers back. -/
def releaseAll (l : Lending) : Lending :=
  (List.range l.buffers.size).foldl release l

end Lending

end WebSocket
