/-
WebSocket/Flate/Format.lean

The tables of the DEFLATE format: which lengths and distances the symbols of a
block stand for, and the fixed codes.

A symbol stands for a range of numbers; the extra bits behind it say which one
is meant.
-/
import WebSocket.Flate.CodeTree

namespace WebSocket.Flate

/-- The symbol that ends a block. -/
def endOfBlock : Nat := 256

/-- The symbols from 257 on: the least match length, and the number of extra
bits. -/
def lengthTable : List (Nat × Nat) :=
  [(3, 0), (4, 0), (5, 0), (6, 0), (7, 0), (8, 0), (9, 0), (10, 0),
   (11, 1), (13, 1), (15, 1), (17, 1), (19, 2), (23, 2), (27, 2), (31, 2),
   (35, 3), (43, 3), (51, 3), (59, 3), (67, 4), (83, 4), (99, 4), (115, 4),
   (131, 5), (163, 5), (195, 5), (227, 5), (258, 0)]

/-- The distance symbols: the least distance, and the number of extra bits. -/
def distanceTable : List (Nat × Nat) :=
  [(1, 0), (2, 0), (3, 0), (4, 0), (5, 1), (7, 1), (9, 2), (13, 2),
   (17, 3), (25, 3), (33, 4), (49, 4), (65, 5), (97, 5), (129, 6), (193, 6),
   (257, 7), (385, 7), (513, 8), (769, 8), (1025, 9), (1537, 9), (2049, 10), (3073, 10),
   (4097, 11), (6145, 11), (8193, 12), (12289, 12), (16385, 13), (24577, 13)]

/-- The order in which the word lengths of the code for word lengths are given. -/
def lengthOrder : List Nat :=
  [16, 17, 18, 0, 8, 7, 9, 6, 10, 5, 11, 4, 12, 3, 13, 2, 14, 1, 15]

/-- The word lengths of the fixed code for literals and match lengths. -/
def fixedLiteralLengths : List Nat :=
  List.replicate 144 8 ++ List.replicate 112 9 ++ List.replicate 24 7 ++ List.replicate 8 8

/-- The word lengths of the fixed code for distances. -/
def fixedDistanceLengths : List Nat :=
  List.replicate 32 5

/-- The fixed code for literals and match lengths. -/
def fixedLiterals : CodeTree :=
  CodeTree.ofLengths fixedLiteralLengths

/-- The fixed code for distances. -/
def fixedDistances : CodeTree :=
  CodeTree.ofLengths fixedDistanceLengths

end WebSocket.Flate
