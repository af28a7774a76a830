/-
WebSocket/Proofs/Flate/Tokens.lean

What the tokens of a block stand for and how they are written, and that a decoder makes the one of
the other.

Design.  A token stands for octets behind those that were written before (`Token.Denotes`): a
literal for itself, and a reference for octets each of which stands some distance in front of
itself (`Repeats`).  In a block it is written in two codes, each given by the lengths of its words
(`Token.Coded`); nothing is said about which of several ways of writing is taken.

A decoder in a block with these codes that has the bits of tokens in front of it writes what they
stand for, and is then in the same block again (`Token.DenoteAll.proceeds`).  The fixed codes are
one case, and what the compressor writes is one way of writing in them
(`Token.DenoteAll.codedAll_bits`).
-/
import Mathlib.Data.List.Chain
import WebSocket.Proofs.Flate.CanonicalCode

namespace WebSocket.Flate

/-! ### Tokens -/

/-- Behind the octets `written`, each of these is the one that stands `distance` before it. -/
def Repeats (distance : Nat) : (written octets : Bytes) → Prop
  | _, [] => True
  | written, b :: octets =>
    written[written.length - distance]? = some b ∧ Repeats distance (written ++ [b]) octets

/-- The octets that a token stands for behind those that were written, with references that
reach back no further than `window`. -/
inductive Token.Denotes (window : Nat) (written : Bytes) : Token → Bytes → Prop
  | literal (b : UInt8) : Denotes window written (.literal b) [b]
  | reference {length distance : Nat} {octets : Bytes} (hlength : octets.length = length)
      (hmin : minMatch ≤ length) (hmax : length ≤ maxMatch) (hpos : 0 < distance)
      (hwindow : distance ≤ window) (hwritten : distance ≤ written.length)
      (h : Repeats distance written octets) :
      Denotes window written (.reference length distance) octets

/-- The octets that tokens stand for, one behind the other. -/
inductive Token.DenoteAll (window : Nat) : (written : Bytes) → List Token → Bytes → Prop
  | nil {written : Bytes} : DenoteAll window written [] []
  | cons {written octets rest : Bytes} {t : Token} {ts : List Token}
      (ht : t.Denotes window written octets) (hts : DenoteAll window (written ++ octets) ts rest) :
      DenoteAll window written (t :: ts) (octets ++ rest)

/-- Any octets can be given as literals. -/
theorem Token.denoteAll_literals {window : Nat} {written : Bytes} (octets : Bytes) :
    Token.DenoteAll window written (octets.map .literal) octets := by
  induction octets generalizing written with
  | nil => exact .nil
  | cons b octets ih => exact .cons (.literal b) ih

/-- How a token is written in codes whose words have these lengths.  A length and a distance are
given by a symbol each, which stands for a range of numbers, and by the place in that range. -/
inductive Token.Coded (literals distances : List Nat) : Token → List Bool → Prop
  | literal {b : UInt8} {word : List Bool} (h : word? literals b.toNat = some word) :
      Coded literals distances (.literal b) word
  | reference {i j least least' width width' extra extra' : Nat} {word word' : List Bool}
      (hlength : lengthTable[i]? = some (least, width)) (hextra : extra < 1 <<< width)
      (hword : word? literals (257 + i) = some word)
      (hdistance : distanceTable[j]? = some (least', width')) (hextra' : extra' < 1 <<< width')
      (hword' : word? distances j = some word') :
      Coded literals distances (.reference (least + extra) (least' + extra'))
        (word ++ (numberBits width extra ++ (word' ++ numberBits width' extra')))

/-- How tokens are written, one behind the other. -/
inductive Token.CodedAll (literals distances : List Nat) : List Token → List Bool → Prop
  | nil : CodedAll literals distances [] []
  | cons {t : Token} {ts : List Token} {bits more : List Bool} (ht : t.Coded literals distances bits)
      (hts : CodedAll literals distances ts more) :
      CodedAll literals distances (t :: ts) (bits ++ more)

/-! ### Tables and codes -/

/-- In a table whose ranges leave nothing out up to `bound`, the range of a number holds it. -/
theorem rangeOf_spec {table : List (Nat × Nat)} {first : Nat × Nat} {n : Nat} (bound : Nat)
    (htable : List.IsChain (fun r s : Nat × Nat => s.1 ≤ r.1 + (1 <<< r.2))
      ((first :: table) ++ [(bound, 0)]))
    (hfirst : first.1 ≤ n) (hn : n < bound) :
    ∃ i least width, rangeOf (first :: table) n = (i, least, width)
      ∧ (first :: table)[i]? = some (least, width) ∧ least ≤ n ∧ n - least < 1 <<< width := by
  -- The places are counted from any number on, as they are in the rest of the table.
  suffices hlast : ∀ k, ∃ i least width,
      ((((first :: table).zipIdx k).takeWhile fun r => r.1.1 ≤ n).getLast?
          = some ((least, width), k + i))
        ∧ (first :: table)[i]? = some (least, width) ∧ least ≤ n ∧ n - least < 1 <<< width by
    obtain ⟨i, least, width, hi, hrange⟩ := hlast 0
    refine ⟨i, least, width, ?_, hrange⟩
    simp only [rangeOf, hi, Nat.zero_add]
  induction table generalizing first with
  | nil =>
    intro k
    have hnext : bound ≤ first.1 + (1 <<< first.2) := by simpa using htable
    exact ⟨0, first.1, first.2, by simp [hfirst], rfl, hfirst, by omega⟩
  | cons second table ih =>
    intro k
    obtain ⟨hnext, htable⟩ := List.isChain_cons_cons.1 htable
    rw [List.zipIdx_cons, List.takeWhile_cons_of_pos (by simpa using hfirst)]
    by_cases hsecond : second.1 ≤ n
    · obtain ⟨i, least, width, hi, hget, hrange⟩ := ih htable hsecond (k + 1)
      refine ⟨i + 1, least, width, ?_, hget, hrange⟩
      rw [List.getLast?_cons, hi, Option.getD_some]
      congr 2
      omega
    · refine ⟨0, first.1, first.2, ?_, rfl, hfirst, by omega⟩
      rw [List.zipIdx_cons, List.takeWhile_cons_of_neg (by simpa using hsecond)]
      rfl

theorem rangeOf_lengthTable {n : Nat} (hmin : minMatch ≤ n) (hmax : n ≤ maxMatch) :
    ∃ i least width, rangeOf lengthTable n = (i, least, width)
      ∧ lengthTable[i]? = some (least, width) ∧ least ≤ n ∧ n - least < 1 <<< width :=
  rangeOf_spec (maxMatch + 1) (by decide) hmin (Nat.lt_succ_of_le hmax)

theorem rangeOf_distanceTable {n : Nat} (hpos : 0 < n) (hmax : n ≤ 32768) :
    ∃ i least width, rangeOf distanceTable n = (i, least, width)
      ∧ distanceTable[i]? = some (least, width) ∧ least ≤ n ∧ n - least < 1 <<< width :=
  rangeOf_spec 32769 (by decide) hpos (Nat.lt_succ_of_le hmax)

/-! ### The fixed codes -/

theorem isDataCode_fixedLiteralLengths : IsDataCode fixedLiteralLengths :=
  .inl ⟨by decide +kernel, by decide +kernel⟩

theorem isDataCode_fixedDistanceLengths : IsDataCode fixedDistanceLengths :=
  .inl ⟨by decide, by decide⟩

theorem word?_fixedLiteralLengths {symbol : Nat} (h : symbol < 286) :
    word? fixedLiteralLengths symbol = some (fixedWord symbol) := by
  have hruns : fixedLiteralLengths = List.replicate 144 8 ++ (List.replicate 112 9
      ++ (List.replicate 24 7 ++ (List.replicate 8 8 ++ []))) := by
    simp only [fixedLiteralLengths, List.append_assoc, List.append_nil]
  -- The runs in front of the one at hand are taken together.
  have hruns₂ := hruns.trans (List.append_assoc ..).symm
  have hruns₃ := hruns₂.trans (List.append_assoc ..).symm
  unfold fixedWord
  split
  · next hlt =>
    have hruns₁ := hruns.trans (List.nil_append _).symm
    show _ = some (wordBits 8 (0x30 + (symbol - 0)))
    exact word?_of_run hruns₁ List.length_nil (by decide) (by decide +kernel) (Nat.zero_le _)
      (Nat.lt_of_lt_of_le hlt (by decide))
  split
  · next hge hlt =>
    exact word?_of_run hruns List.length_replicate (by decide) (by decide +kernel)
      (Nat.le_of_not_lt hge) hlt
  split
  · next hge hlt =>
    rw [← Nat.zero_add (symbol - 256)]
    exact word?_of_run hruns₂ (by simp only [List.length_append, List.length_replicate])
      (by decide) (by decide +kernel) (Nat.le_of_not_lt hge) hlt
  · next hge =>
    exact word?_of_run hruns₃ (by simp only [List.length_append, List.length_replicate])
      (by decide) (by decide +kernel) (Nat.le_of_not_lt hge) (Nat.lt_of_lt_of_le h (by decide))

theorem word?_fixedDistanceLengths {symbol : Nat} (h : symbol < 30) :
    word? fixedDistanceLengths symbol = some (wordBits 5 symbol) := by
  revert symbol
  decide

section

variable {window : Nat} {written octets : Bytes}

/-- What the compressor writes of a token is one way to write it. -/
theorem Token.Denotes.coded_bits {t : Token} (ht : t.Denotes window written octets)
    (hwindow : window ≤ 32768) : t.Coded fixedLiteralLengths fixedDistanceLengths t.bits := by
  cases ht with
  | literal b =>
    have hb : b.toNat < 286 := Nat.lt_of_lt_of_le b.toNat_lt (by decide)
    exact .literal (word?_fixedLiteralLengths hb)
  | @reference length distance _ _ hmin hmax hpos hnear _ _ =>
    obtain ⟨i, least, width, hi, hlengths, hle, hlt⟩ := rangeOf_lengthTable hmin hmax
    obtain ⟨j, least', width', hj, hdistances, hle', hlt'⟩ :=
      rangeOf_distanceTable hpos (Nat.le_trans hnear hwindow)
    have hsymbol : 257 + i < 286 :=
      Nat.add_lt_add_left (List.getElem?_eq_some_iff.1 hlengths).1 257
    have hsymbol' : j < 30 := (List.getElem?_eq_some_iff.1 hdistances).1
    have hcoded := Token.Coded.reference hlengths hlt (word?_fixedLiteralLengths hsymbol)
      hdistances hlt' (word?_fixedDistanceLengths hsymbol')
    rw [Nat.add_sub_cancel' hle, Nat.add_sub_cancel' hle'] at hcoded
    simpa only [Token.bits, hi, hj, List.append_assoc] using hcoded

theorem Token.DenoteAll.codedAll_bits {ts : List Token}
    (hts : Token.DenoteAll window written ts octets) (hwindow : window ≤ 32768) :
    Token.CodedAll fixedLiteralLengths fixedDistanceLengths ts (ts.flatMap Token.bits) := by
  induction hts with
  | nil => exact .nil
  | cons ht _ ih =>
    rw [List.flatMap_cons]
    exact .cons (ht.coded_bits hwindow) ih

end

namespace Inflater

/-! ### What is pending -/

section

variable {d : Inflater} {length distance : Nat} {written octets : Bytes} {b : UInt8}

theorem proceeds_literal (hp : d.pending = some (.literal b)) (hd : d.history = written.toArray)
    (input : Bytes) :
    d.Proceeds input [b] { d with pending := none, history := (written ++ [b]).toArray } input := by
  have hpush : d.history.push b = (written ++ [b]).toArray := by simp [hd]
  rw [← hpush]
  exact .turn (Call.Steps.literal (c := d.alone input) hp Nat.one_ne_zero).turn .refl

/-- One octet of a match. -/
theorem proceeds_copy_one (hp : d.pending = some (.copy length distance))
    (hd : d.history = written.toArray) (hwindow : distance ≤ 1 <<< d.windowBits)
    (hwritten : distance ≤ written.length) (hb : written[written.length - distance]? = some b)
    (input : Bytes) :
    d.Proceeds input [b]
      { d with
        pending := if length ≤ 1 then none else some (.copy (length - 1) distance)
        history := (written ++ [b]).toArray } input := by
  have hsource : d.history.getD (d.history.size - distance) 0 = b := by
    simp [hd, Array.getD_eq_getD_getElem?, hb]
  have hnear : distance ≤ (d.alone input).output.size + (d.alone input).reach := by
    simp only [alone, call, hd, List.size_toArray, List.length_nil]
    omega
  have hturn := (Call.Steps.copy (c := d.alone input) hp Nat.one_ne_zero hnear).turn
  rw [show (d.alone input).decoder = d from rfl, hsource] at hturn
  have hpush : d.history.push b = (written ++ [b]).toArray := by simp [hd]
  rw [← hpush]
  exact .turn hturn .refl

/-- A match is written octet by octet. -/
theorem proceeds_copy (hp : d.pending = some (.copy octets.length distance))
    (hd : d.history = written.toArray) (hne : octets ≠ [])
    (hwindow : distance ≤ 1 <<< d.windowBits) (hwritten : distance ≤ written.length)
    (h : Repeats distance written octets) (input : Bytes) :
    d.Proceeds input octets
      { d with pending := none, history := (written ++ octets).toArray } input := by
  induction octets generalizing d written with
  | nil => exact absurd rfl hne
  | cons b octets ih =>
    obtain ⟨hb, hrest⟩ := h
    have hone := proceeds_copy_one hp hd hwindow hwritten hb input
    -- Behind the last octet nothing is pending any more.
    rcases octets with - | ⟨next, octets⟩
    · exact hone
    · have hmore := ih (d := { d with
          pending := some (.copy (next :: octets).length distance)
          history := (written ++ [b]).toArray }) rfl rfl (List.cons_ne_nil _ _) hwindow
        (by rw [List.length_append]; omega) hrest
      rw [List.append_assoc] at hmore
      exact hone.trans hmore

end

/-! ### Blocks -/

/-- A decoder in a block whose codes have words of these lengths.  A literal, a match or the end
of the block comes next. -/
def inBlock (windowBits : Nat) (last : Bool) (literals distances : List Nat) (written : Bytes)
    (hold : List Bool) : Inflater where
  windowBits
  mode := .word .literal (CodeTree.ofLengths literals)
  last
  literals := CodeTree.ofLengths literals
  distances := CodeTree.ofLengths distances
  hold
  history := written.toArray

theorem acceptSymbol_literal (b : UInt8) (d : Inflater) :
    d.acceptSymbol .literal b.toNat
      = some { d.expectLiteral with pending := some (.literal b) } := by
  have hb : b.toNat < endOfBlock := b.toNat_lt
  simp only [acceptSymbol, if_pos hb, UInt8.ofNat_toNat]

theorem acceptSymbol_length {i least width : Nat} (h : lengthTable[i]? = some (least, width))
    (d : Inflater) : d.acceptSymbol .literal (257 + i)
      = some (if width = 0 then d.expectDistance least
        else d.expect (.lengthExtra least width)) := by
  have hliteral : ¬257 + i < endOfBlock := by simp only [endOfBlock]; omega
  have hend : 257 + i ≠ endOfBlock := by simp only [endOfBlock]; omega
  simp only [acceptSymbol, if_neg hliteral, if_neg hend, Nat.add_sub_cancel_left, h]
  rcases width with - | width <;> rfl

theorem acceptSymbol_distance {j least width : Nat} (h : distanceTable[j]? = some (least, width))
    (length : Nat) (d : Inflater) : d.acceptSymbol (.distance length) j
      = some (if width = 0 then d.emitCopy length least
        else d.expect (.distanceExtra length least width)) := by
  simp only [acceptSymbol, h]
  rcases width with - | width <;> rfl

end Inflater

open Inflater

variable {w : Nat} {last : Bool} {literals distances : List Nat} {written octets input : Bytes}
  {hold tokenBits bits : List Bool}

/-- In a block, a decoder makes of a token what it stands for. -/
theorem Token.Denotes.proceeds {t : Token} (ht : t.Denotes (1 <<< w) written octets)
    (hcoded : t.Coded literals distances tokenBits) (hliterals : IsDataCode literals)
    (hdistances : IsDataCode distances)
    (h : (inBlock w last literals distances written hold).Faces input (tokenBits ++ bits)) :
    ∃ hold' input', (inBlock w last literals distances (written ++ octets) hold').Faces input' bits
      ∧ (inBlock w last literals distances written hold).Proceeds input octets
          (inBlock w last literals distances (written ++ octets) hold') input' := by
  cases hcoded with
  | @literal b _ hword =>
    cases ht
    obtain ⟨hleads, hne⟩ := hliterals.behind hword
    obtain ⟨hold', mode, input', hfaces, hproceeds⟩ := h.word rfl rfl hleads hne
    have htaken : (inBlock w last literals distances written hold).Proceeds input []
        { inBlock w last literals distances written hold' with pending := some (.literal b) }
        input' :=
      hproceeds _ (acceptSymbol_literal b _)
    exact ⟨hold', input', ⟨hfaces.short, hfaces.eq⟩,
      htaken.trans_quiet (proceeds_literal rfl rfl input')⟩
  | @reference i j least least' width width' extra extra' word word' hlength hextra hword hdistance
      hextra' hword' =>
    cases ht with
    | reference hcount hmin _ _ hwindow hwritten hrepeats =>
      obtain ⟨hleads, hne⟩ := hliterals.behind hword
      obtain ⟨hleads', hne'⟩ := hdistances.behind hword'
      simp only [List.append_assoc] at h
      obtain ⟨hold₁, mode, input₁, hfaces, hproceeds⟩ :=
        h.range rfl rfl hleads hne (acceptSymbol_length hlength) rfl (fun _ _ => rfl) hextra
      have hfaces' : ((inBlock w last literals distances written hold₁).expectDistance
          (least + extra)).Faces input₁ _ :=
        ⟨hfaces.short, hfaces.eq⟩
      obtain ⟨hold₂, mode', input₂, hfaces₂, hproceeds₂⟩ :=
        hfaces'.range rfl rfl hleads' hne' (acceptSymbol_distance hdistance (least + extra)) rfl
          (fun _ _ => rfl) hextra'
      have htaken : (inBlock w last literals distances written hold).Proceeds input []
          { inBlock w last literals distances written hold₂ with
            pending := some (.copy octets.length (least' + extra')) } input₂ := by
        rw [hcount]
        exact hproceeds.trans_quiet hproceeds₂
      have hoctets : octets ≠ [] := by
        rintro rfl
        rw [← hcount] at hmin
        cases hmin
      have hcopy := proceeds_copy (d := { inBlock w last literals distances written hold₂ with
        pending := some (.copy octets.length (least' + extra')) }) rfl rfl hoctets hwindow hwritten
          hrepeats input₂
      exact ⟨hold₂, input₂, ⟨hfaces₂.short, hfaces₂.eq⟩, htaken.trans_quiet hcopy⟩

theorem Token.DenoteAll.proceeds {ts : List Token}
    (hts : Token.DenoteAll (1 <<< w) written ts octets)
    (hcoded : Token.CodedAll literals distances ts tokenBits) (hliterals : IsDataCode literals)
    (hdistances : IsDataCode distances)
    (h : (inBlock w last literals distances written hold).Faces input (tokenBits ++ bits)) :
    ∃ hold' input', (inBlock w last literals distances (written ++ octets) hold').Faces input' bits
      ∧ (inBlock w last literals distances written hold).Proceeds input octets
          (inBlock w last literals distances (written ++ octets) hold') input' := by
  induction hts generalizing hold input tokenBits with
  | nil =>
    cases hcoded
    rw [List.append_nil]
    exact ⟨hold, input, h, .refl⟩
  | cons ht _ ih =>
    cases hcoded with
    | cons hcoded hmore =>
      rw [List.append_assoc] at h
      obtain ⟨hold₁, input₁, hfaces, hproceeds⟩ := ht.proceeds hcoded hliterals hdistances h
      obtain ⟨hold₂, input₂, hfaces₂, hproceeds₂⟩ := ih hmore hfaces
      rw [List.append_assoc] at hfaces₂ hproceeds₂
      exact ⟨hold₂, input₂, hfaces₂, hproceeds.trans hproceeds₂⟩

end WebSocket.Flate
