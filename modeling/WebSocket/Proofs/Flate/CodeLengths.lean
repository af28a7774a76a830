/-
WebSocket/Proofs/Flate/CodeLengths.lean

How the codes of a block are written in front of its data, and that a decoder finds them there.

Design.  A block brings the word lengths of its two codes (`CodesCoded`).  They are one list, so a
run of equal lengths may begin in the first code and end in the second one, and they are written
in a code of their own (`LengthsCoded`).  The lengths of that code come first, as numbers of three
bits in an order of their own.

A decoder keeps the lengths that it has seen, the last one first, and does not know any codes
before it has seen them all.  So what is proved of a part of the lengths says where the decoder is
once the rest is read, too (`LengthsCoded.proceeds`).
-/
import WebSocket.Proofs.Flate.CanonicalCode

namespace WebSocket.Flate

/-! ### Lengths -/

/-- A symbol that stands for a run of lengths `n`: the least number of them, and how many bits say
how many more there are.  The run repeats the length in front of it, or its lengths are zero. -/
inductive LengthRun (seen : List Nat) : (symbol least width n : Nat) → Prop
  | again {n : Nat} (h : seen.head? = some n) : LengthRun seen 16 3 2 n
  | zeros : LengthRun seen 17 3 3 0
  | manyZeros : LengthRun seen 18 11 7 0

/-- How word lengths are written in a code whose words have the lengths `code`, behind those in
`seen`, the last one of which comes first. -/
inductive LengthsCoded (code : List Nat) : (seen lengths : List Nat) → List Bool → Prop
  | nil {seen : List Nat} : LengthsCoded code seen [] []
  | length {seen lengths : List Nat} {n : Nat} {word bits : List Bool} (hn : n ≤ maxCodeLength)
      (hword : word? code n = some word) (h : LengthsCoded code (n :: seen) lengths bits) :
      LengthsCoded code seen (n :: lengths) (word ++ bits)
  | run {seen lengths : List Nat} {symbol least width n extra : Nat} {word bits : List Bool}
      (hrun : LengthRun seen symbol least width n) (hextra : extra < 1 <<< width)
      (hword : word? code symbol = some word)
      (h : LengthsCoded code (List.replicate (least + extra) n ++ seen) lengths bits) :
      LengthsCoded code seen (List.replicate (least + extra) n ++ lengths)
        (word ++ (numberBits width extra ++ bits))

/-- How the codes of a block are written.  There are words for the literals, the end of the block
and maybe match lengths, and for distances, up to as many as have a meaning.  Of the code for the
lengths, `given` lengths are written, and the others are zero. -/
inductive CodesCoded (literals distances : List Nat) : List Bool → Prop
  | intro {code : List Nat} {given : Nat} {runs : List Bool} (hcode : IsComplete code)
      (hsmall : ∀ n ∈ code, n < 1 <<< 3) (hlength : code.length = lengthOrder.length)
      (hgiven : 4 ≤ given ∧ given ≤ lengthOrder.length)
      (hzero : ∀ symbol ∈ lengthOrder.drop given, code[symbol]? = some 0)
      (hliterals : 257 ≤ literals.length ∧ literals.length ≤ 257 + lengthTable.length)
      (hdistances : 1 ≤ distances.length ∧ distances.length ≤ distanceTable.length)
      (hruns : LengthsCoded code [] (literals ++ distances) runs) :
      CodesCoded literals distances
        (numberBits 5 (literals.length - 257) ++ (numberBits 5 (distances.length - 1)
          ++ (numberBits 4 (given - 4)
            ++ ((lengthOrder.take given).flatMap (fun symbol => numberBits 3 (code.getD symbol 0))
              ++ runs))))

open CodeTree

variable {counts : WordCounts} {code seen lengths : List Nat} {runs bits : List Bool}
  {d : Inflater} {input : Bytes}

/-! ### Reading lengths -/

namespace Inflater

/-- As long as lengths are missing, a word comes next. -/
theorem expectLengths_of_lt (h : seen.length < counts.literal + counts.distance) (tree : CodeTree)
    (d : Inflater) : d.expectLengths counts tree seen
      = some { d with mode := .word (.lengths counts tree seen) tree } := by
  simp only [expectLengths, if_pos h]

theorem expectLengths_of_eq (h : seen.length = counts.literal + counts.distance) (tree : CodeTree)
    (d : Inflater) : d.expectLengths counts tree seen = d.startDynamic counts seen.reverse := by
  simp only [expectLengths, if_neg (Nat.not_lt.2 (Nat.le_of_eq h.symm)), if_pos h]

end Inflater

open Inflater

theorem LengthRun.bounds {symbol least width n : Nat} (h : LengthRun seen symbol least width n) :
    0 < least ∧ 0 < width := by
  cases h <;> decide

/-- What a decoder does about a run of lengths. -/
theorem LengthRun.exists_repetition {symbol least width n : Nat}
    (h : LengthRun seen symbol least width n) (counts : WordCounts) (tree : CodeTree) :
    ∃ repeated,
      (∀ e : Inflater, e.acceptSymbol (.lengths counts tree seen) symbol
        = some (e.expect (.repetition counts tree seen repeated least width)))
      ∧ ∀ (e : Inflater) (v : Nat),
        e.acceptField (.repetition counts tree seen repeated least width) v
          = e.expectLengths counts tree (List.replicate (least + v) n ++ seen) := by
  cases h with
  | again hlast =>
    obtain ⟨front, rfl⟩ := List.head?_eq_some_iff.1 hlast
    exact ⟨none, fun _ => rfl, fun _ _ => rfl⟩
  | zeros | manyZeros => exact ⟨some 0, fun _ => rfl, fun _ _ => by cases seen <;> rfl⟩

/-- A decoder that has the words of lengths in front of it comes to the data of the block. -/
theorem LengthsCoded.proceeds (h : LengthsCoded code seen lengths runs) (hcode : IsComplete code)
    (hcount : seen.length + lengths.length = counts.literal + counts.distance)
    {literals distances : CodeTree}
    (hstart : ∀ e : Inflater, e.startDynamic counts (seen.reverse ++ lengths)
      = some ({ e with literals, distances } : Inflater).expectLiteral)
    (hp : d.pending = none) (hfaces : d.Faces input (runs ++ bits)) :
    ∃ e hold input', d.expectLengths counts (ofLengths code) seen = some e
      ∧ e.Proceeds input [] ({ d with hold, literals, distances } : Inflater).expectLiteral input'
      ∧ ({ d with hold } : Inflater).Faces input' bits := by
  induction h generalizing d input with
  | nil =>
    rw [List.append_nil] at hstart
    rw [expectLengths_of_eq hcount, hstart]
    exact ⟨_, d.hold, input, rfl, .refl, hfaces⟩
  | @length seen lengths n word runs hn hword _ ih =>
    rw [List.length_cons] at hcount
    rw [expectLengths_of_lt (by omega)]
    rw [List.append_assoc] at hfaces
    obtain ⟨hleads, hne⟩ := hcode.behind hword
    let e : Inflater :=
      { d with mode := .word (.lengths counts (ofLengths code) seen) (ofLengths code) }
    have he : e.Faces input _ := ⟨hfaces.short, hfaces.eq⟩
    obtain ⟨hold, mode, input₁, hfaces₁, hproceeds₁⟩ := he.word hp rfl hleads hne
    have hlt : n < 16 := Nat.lt_succ_of_le hn
    obtain ⟨e', hold', input', hnext, hdata, hrest⟩ :=
      ih (d := { e with hold, mode }) (by rw [List.length_cons]; omega)
        (fun e => by rw [List.reverse_cons, List.append_assoc]; exact hstart e) hp hfaces₁
    have htaken : e.Proceeds input [] e' input₁ :=
      hproceeds₁ e' (by simp only [acceptSymbol, if_pos hlt]; exact hnext)
    exact ⟨e, hold', input', rfl, htaken.trans_quiet hdata, hrest.short, hrest.eq⟩
  | @run seen lengths symbol least width n extra word runs hrun hextra hword _ ih =>
    obtain ⟨hleast, hwidth⟩ := hrun.bounds
    obtain ⟨repeated, hsymbol, hfield⟩ := hrun.exists_repetition counts (ofLengths code)
    rw [List.length_append, List.length_replicate] at hcount
    rw [expectLengths_of_lt (by omega)]
    simp only [List.append_assoc] at hfaces
    obtain ⟨hleads, hne⟩ := hcode.behind hword
    let e : Inflater :=
      { d with mode := .word (.lengths counts (ofLengths code) seen) (ofLengths code) }
    have he : e.Faces input _ := ⟨hfaces.short, hfaces.eq⟩
    obtain ⟨hold, mode, input₁, hfaces₁, hproceeds₁⟩ := he.word hp rfl hleads hne
    let f : Field := .repetition counts (ofLengths code) seen repeated least width
    have hplace : (({ e with hold, mode } : Inflater).expect f).Faces input₁
        (numberBits f.width extra ++ _) :=
      ⟨hfaces₁.short, hfaces₁.eq⟩
    obtain ⟨hold₂, mode₂, input₂, hfaces₂, hproceeds₂⟩ := hplace.field hp rfl hwidth hextra
    obtain ⟨e', hold', input', hnext, hdata, hrest⟩ :=
      ih (d := { e with hold := hold₂, mode := mode₂ })
        (by rw [List.length_append, List.length_replicate]; omega)
        (fun e => by rw [← hstart e]; simp) hp hfaces₂
    have htaken : e.Proceeds input [] e' input₂ :=
      (hproceeds₁ _ (hsymbol _)).trans_quiet (hproceeds₂ e' ((hfield _ _).trans hnext))
    exact ⟨e, hold', input', rfl, htaken.trans_quiet hdata, hrest.short, hrest.eq⟩

/-! ### The code for the lengths -/

/-- The word lengths of the code for the lengths, of which these are given. -/
def codeOf (given : List Nat) : List Nat :=
  (List.range lengthOrder.length).map fun n => ((lengthOrder.zip given).lookup n).getD 0

/-- Numbers that are given in some order are found again, as far as they are given. -/
theorem lookup_zip_take (f : Nat → Nat) (order : List Nat) (k n : Nat) :
    (order.zip ((order.take k).map f)).lookup n = if n ∈ order.take k then some (f n) else none := by
  induction order generalizing k with
  | nil => simp
  | cons m order ih =>
    cases k with
    | zero => simp
    | succ k =>
      rw [List.take_succ_cons, List.map_cons, List.zip_cons_cons, List.lookup_cons, ih]
      by_cases hm : n = m
      · simp [hm]
      · simp [hm, beq_eq_false_iff_ne.2 hm]

/-- The lengths that are not given are zero. -/
theorem codeOf_eq {given : Nat} (hlength : code.length = lengthOrder.length)
    (hzero : ∀ symbol ∈ lengthOrder.drop given, code[symbol]? = some 0) :
    codeOf ((lengthOrder.take given).map fun symbol => code.getD symbol 0) = code := by
  refine List.ext_getElem (by simp [codeOf, hlength]) fun n hn hn' => ?_
  have hcode : code.getD n 0 = code[n] := by simp [hn']
  have hmem : n ∈ lengthOrder := by
    have hall : ∀ n < lengthOrder.length, n ∈ lengthOrder := by decide
    exact hall n (hlength ▸ hn')
  simp only [codeOf, List.getElem_map, List.getElem_range, lookup_zip_take]
  split
  · exact hcode
  · next hnot =>
    rw [← List.take_append_drop given lengthOrder] at hmem
    have hlast := hzero n ((List.mem_append.1 hmem).resolve_left hnot)
    exact (List.getElem?_eq_some_iff.1 hlast).2.symm

namespace Inflater

/-- A decoder that has the lengths of the code for the lengths in front of it knows that code
behind them. -/
theorem Faces.metaLengths {given : List Nat} {tree : CodeTree}
    (hfaces : d.Faces input (given.flatMap (numberBits 3) ++ bits))
    (hsmall : ∀ n ∈ given, n < 1 <<< 3) (hcount : seen.length + given.length = counts.forLengths)
    (hcode : forLengths? (codeOf (seen.reverse ++ given)) = some tree) (hp : d.pending = none) :
    ∃ hold mode input', ({ d with hold, mode } : Inflater).Faces input' bits
      ∧ ∀ e', ({ d with hold, mode } : Inflater).expectLengths counts tree [] = some e' →
        ∃ e, d.expectMetaLength counts seen = some e ∧ e.Proceeds input [] e' input' := by
  induction given generalizing d input seen with
  | nil =>
    have hall : ¬seen.length < counts.forLengths := by
      rw [List.length_nil] at hcount
      omega
    refine ⟨d.hold, d.mode, input, hfaces, fun e' he' => ⟨e', ?_, .refl⟩⟩
    rw [List.append_nil] at hcode
    rw [expectMetaLength, if_neg hall]
    show (forLengths? (codeOf seen.reverse)).bind (fun code => d.expectLengths counts code [])
      = some e'
    rw [hcode]
    exact he'
  | cons n given ih =>
    rw [List.length_cons] at hcount
    rw [List.flatMap_cons, List.append_assoc] at hfaces
    have hplace : (d.expect (.metaLength counts seen)).Faces input _ :=
      ⟨hfaces.short, hfaces.eq⟩
    obtain ⟨hold, mode, input₁, hfaces₁, hproceeds₁⟩ :=
      hplace.field (f := .metaLength counts seen) hp rfl (Nat.zero_lt_succ 2)
        (hsmall n List.mem_cons_self)
    have hcount' : (n :: seen).length + given.length = counts.forLengths := by
      rw [List.length_cons]
      omega
    obtain ⟨hold', mode', input', hfaces', hnext⟩ := ih hfaces₁
      (fun m hm => hsmall m (List.mem_cons_of_mem _ hm)) hcount'
      (by rw [List.reverse_cons, List.append_assoc]; exact hcode) hp
    refine ⟨hold', mode', input', ⟨hfaces'.short, hfaces'.eq⟩, fun e' he' => ?_⟩
    obtain ⟨e, he, hproceeds⟩ := hnext e' he'
    refine ⟨d.expect (.metaLength counts seen), ?_, (hproceeds₁ e he).trans_quiet hproceeds⟩
    rw [expectMetaLength, if_pos (by omega)]

end Inflater

/-! ### The codes of a block -/

theorem startDynamic_eq_some {literals distances : List Nat} (hliterals : IsDataCode literals)
    (hdistances : IsDataCode distances) (hlength : endOfBlock < literals.length)
    (hend : literals.getD endOfBlock 0 ≠ 0) (hcount : counts.literal = literals.length)
    (d : Inflater) : d.startDynamic counts (literals ++ distances)
      = some ({ d with literals := ofLengths literals, distances := ofLengths distances } :
          Inflater).expectLiteral := by
  have hword : (literals ++ distances).getD endOfBlock 0 = literals.getD endOfBlock 0 := by
    rw [List.getD_eq_getElem?_getD, List.getD_eq_getElem?_getD,
      List.getElem?_append_left hlength]
  rw [startDynamic, hword, if_neg hend, hcount, List.take_left, List.drop_left,
    forData?_eq_some hliterals, forData?_eq_some hdistances]
  rfl

/-- A decoder that has the codes of a block in front of it comes to the data of the block. -/
theorem CodesCoded.proceeds {literals distances : List Nat} {header : List Bool}
    (h : CodesCoded literals distances header) (hliterals : IsDataCode literals)
    (hdistances : IsDataCode distances) (hend : literals.getD endOfBlock 0 ≠ 0)
    (hp : d.pending = none) (hm : d.mode = .field .counts 0 0)
    (hfaces : d.Faces input (header ++ bits)) :
    ∃ hold input',
      d.Proceeds input [] ({ d with
        hold, literals := ofLengths literals, distances := ofLengths distances } :
          Inflater).expectLiteral input'
      ∧ ({ d with hold } : Inflater).Faces input' bits := by
  cases h with
  | @intro code given runs hcode hsmall hlength hgiven hzero hcount hcount' hruns =>
    have hcount : 257 ≤ literals.length ∧ literals.length ≤ 286 := hcount
    have hcount' : 1 ≤ distances.length ∧ distances.length ≤ 30 := hcount'
    have hgiven : 4 ≤ given ∧ given ≤ 19 := hgiven
    -- The three numbers are read as one.
    let v := 2 ^ 10 * (given - 4) + (2 ^ 5 * (distances.length - 1) + (literals.length - 257))
    have hnumbers : numberBits 5 (literals.length - 257) ++ numberBits 5 (distances.length - 1)
        ++ numberBits 4 (given - 4) = numberBits Field.counts.width v := by
      rw [numberBits_append (by omega), numberBits_append (by omega)]
      rfl
    let counts : WordCounts := ⟨literals.length, distances.length, given⟩
    have haccept (e : Inflater) : e.acceptField .counts v = e.expectMetaLength counts [] := by
      have hliteral : v % 32 + 257 = literals.length := by omega
      have hdistance : v / 32 % 32 + 1 = distances.length := by omega
      have hlengths : v / 1024 + 4 = given := by omega
      simp only [acceptField, hliteral, hdistance, hlengths]
      rw [if_neg]
      simp [hcount.2, hcount'.2]
    let written := (lengthOrder.take given).map fun symbol => code.getD symbol 0
    have hwritten : (lengthOrder.take given).flatMap (fun symbol => numberBits 3 (code.getD symbol 0))
        = written.flatMap (numberBits 3) := (List.flatMap_map ..).symm
    have hsmall' : ∀ n ∈ written, n < 1 <<< 3 := by
      intro n hn
      obtain ⟨symbol, -, rfl⟩ := List.mem_map.1 hn
      rw [List.getD_eq_getElem?_getD]
      rcases hget : code[symbol]? with - | m
      · decide
      · exact hsmall m (List.mem_of_getElem? hget)
    have hmeta : forLengths? (codeOf ([].reverse ++ written)) = some (ofLengths code) := by
      rw [List.reverse_nil, List.nil_append, codeOf_eq hlength hzero]
      exact forLengths?_eq_some hcode
    rw [hwritten] at hfaces
    simp only [List.append_assoc] at hfaces
    rw [← List.append_assoc (numberBits 5 _), ← List.append_assoc, hnumbers] at hfaces
    obtain ⟨hold₁, mode₁, input₁, hfaces₁, hproceeds₁⟩ :=
      hfaces.field hp hm (by decide) (by rw [Field.width]; omega)
    have hall : ([] : List Nat).length + written.length = counts.forLengths := by
      rw [List.length_nil, List.length_map, List.length_take, Nat.zero_add]
      exact Nat.min_eq_left hgiven.2
    obtain ⟨hold₂, mode₂, input₂, hfaces₂, hmetas⟩ := hfaces₁.metaLengths hsmall' hall hmeta hp
    have hstart (e : Inflater) : e.startDynamic counts ([].reverse ++ (literals ++ distances))
        = some ({ e with literals := ofLengths literals, distances := ofLengths distances } :
            Inflater).expectLiteral :=
      startDynamic_eq_some hliterals hdistances (Nat.lt_of_lt_of_le (by decide) hcount.1) hend rfl e
    obtain ⟨e, hold₃, input₃, hexpects, hproceeds₃, hfaces₃⟩ :=
      hruns.proceeds (d := { d with hold := hold₂, mode := mode₂ }) hcode
        ((Nat.zero_add _).trans List.length_append) hstart hp hfaces₂
    obtain ⟨e', hexpects', hproceeds₂⟩ := hmetas e hexpects
    have htaken := hproceeds₁ e' ((haccept _).trans hexpects')
    exact ⟨hold₃, input₃, (htaken.trans_quiet hproceeds₂).trans_quiet hproceeds₃, hfaces₃.short,
      hfaces₃.eq⟩

end WebSocket.Flate
