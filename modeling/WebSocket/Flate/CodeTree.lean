/-
WebSocket/Flate/CodeTree.lean

Prefix codes as binary trees, and the canonical code that a list of code lengths
stands for.

In the canonical code the words are ordered by length and then by symbol, and
each takes the leftmost place that is left at its depth.  So `grow` builds the
tree from left to right out of the sorted list of lengths.

Not every list of lengths stands for a code: `weight` is the part of the tree
that the words take up, and a list is complete if it takes up all of it.
-/

namespace WebSocket.Flate

/-- A prefix code: which symbol a sequence of bits leads to. -/
inductive CodeTree where
  /-- No word starts like this. -/
  | dead
  | leaf (symbol : Nat)
  | node (zero one : CodeTree)
  deriving DecidableEq, Repr, Inhabited

/-- The longest word of a code. -/
def maxCodeLength : Nat := 15

namespace CodeTree

/-- The tree behind the next bit. -/
def child : CodeTree → Bool → CodeTree
  | node zero one, b => if b then one else zero
  | _, _ => dead

/-- The tree at `depth` whose leaves are the first of a list of word lengths and
symbols, and what is left of that list.  The tree has at most `height` more
levels. -/
def grow : (height depth : Nat) → List (Nat × Nat) → CodeTree × List (Nat × Nat)
  | _, _, [] => (dead, [])
  | 0, depth, (length, symbol) :: words =>
    if length = depth then (leaf symbol, words) else (dead, (length, symbol) :: words)
  | height + 1, depth, (length, symbol) :: words =>
    if length = depth then (leaf symbol, words)
    else
      let zero := grow height (depth + 1) ((length, symbol) :: words)
      let one := grow height (depth + 1) zero.2
      (node zero.1 one.1, one.2)

/-- The symbols that have a word, with the length of it, in canonical order. -/
def canonical (lengths : List Nat) : List (Nat × Nat) :=
  (List.range' 1 maxCodeLength).flatMap fun n => lengths.zipIdx.filter fun w => w.1 == n

/-- The canonical code for a list of word lengths by symbol, where zero stands
for a symbol without a word. -/
def ofLengths (lengths : List Nat) : CodeTree :=
  (grow maxCodeLength 0 (canonical lengths)).1

/-- The part of the tree that words of these lengths take up, in units of a word
of the greatest length. -/
def weight (lengths : List Nat) : Nat :=
  lengths.foldl (fun w n => if n = 0 then w else w + (1 <<< (maxCodeLength - n))) 0

/-- Whether words of these lengths take up all of the tree, no less and no more. -/
def isComplete (lengths : List Nat) : Bool :=
  weight lengths == 1 <<< maxCodeLength

/-- The code in which the word lengths of a block are written.  It has to be
complete.  If no symbol has a word, every bit is a word for zero. -/
def forLengths? (lengths : List Nat) : Option CodeTree :=
  if lengths.all (· == 0) then some (node (leaf 0) (leaf 0))
  else if isComplete lengths then some (ofLengths lengths)
  else none

/-- The code for the data of a block.  It has to be complete, unless it has no
word at all or a single one of one bit. -/
def forData? (lengths : List Nat) : Option CodeTree :=
  if isComplete lengths then some (ofLengths lengths)
  else if lengths.all (· ≤ 1) && weight lengths < 1 <<< maxCodeLength then
    some (ofLengths lengths)
  else none

end CodeTree

end WebSocket.Flate
