/-
WebSocket/Proofs/Flate/Blocks.lean

What a stream of blocks is, and what a decoder makes of it.

Design.  A block is said by its bits, and a stored one also by its place, as its octets begin at
an octet boundary (`Body`).  Blocks follow each other at any bit; only behind a last block the rest
of the octet has no meaning (`Series`).  Both say which octets the bits stand for, and leave open
how a writer has come to them.

A decoder that has a block in front of it writes what it stands for and is at its end
(`Body.proceeds`).  How much of an octet it holds is never followed through a block: the number of
bits in front of it says it, where it matters (`Faces.hold_eq`).

Main results: a stream in which no block but possibly the final one is a last block is read as a
whole (`Series.exists_yields`).  If one is, the decoder is at the end of its stream with octets
left over (`Series.exists_finished`).
-/
import WebSocket.Proofs.Flate.CodeLengths
import WebSocket.Proofs.Flate.Tokens

namespace WebSocket.Flate

open Inflater

/-! ### Blocks -/

/-- What a block is made of behind the bit that says whether it is the last one, and the octets that
it stands for behind those that were written.  There are `place` bits in front of the block. -/
inductive Body (window : Nat) (written : Bytes) (place : Nat) : Bytes → List Bool → Prop
  | stored {octets : Bytes} {padding : List Bool} (hlength : octets.length < 2 ^ 16)
      (hpadding : padding.length < 8) (hplace : (place + 3 + padding.length) % 8 = 0) :
      Body window written place octets
        (numberBits 2 0 ++ (padding ++ (numberBits 16 octets.length
          ++ (numberBits 16 (2 ^ 16 - 1 - octets.length) ++ octets.flatMap bitsOf))))
  | fixed {octets : Bytes} {ts : List Token} {bits word : List Bool}
      (hts : Token.DenoteAll window written ts octets)
      (hcoded : Token.CodedAll fixedLiteralLengths fixedDistanceLengths ts bits)
      (hend : word? fixedLiteralLengths endOfBlock = some word) :
      Body window written place octets (numberBits 2 1 ++ (bits ++ word))
  | dynamic {octets : Bytes} {literals distances : List Nat} {header : List Bool} {ts : List Token}
      {bits word : List Bool} (hliterals : IsDataCode literals) (hdistances : IsDataCode distances)
      (hheader : CodesCoded literals distances header)
      (hts : Token.DenoteAll window written ts octets)
      (hcoded : Token.CodedAll literals distances ts bits)
      (hend : word? literals endOfBlock = some word) :
      Body window written place octets (numberBits 2 2 ++ (header ++ (bits ++ word)))

/-- Blocks one behind the other, with the bit in front of each that says whether it is the last one.
There are `place` bits in front of them.  Behind a last block, the next one begins at an octet
boundary. -/
inductive Series (window : Nat) : (written : Bytes) → (place : Nat) → (lasts : List Bool) →
    (octets : Bytes) → (bits : List Bool) → Prop
  | nil {written : Bytes} {place : Nat} : Series window written place [] [] []
  | block {written octets rest : Bytes} {place : Nat} {lasts body bits : List Bool}
      (hbody : Body window written place octets body)
      (h : Series window (written ++ octets) (place + (1 + body.length)) lasts rest bits) :
      Series window written place (false :: lasts) (octets ++ rest) (false :: (body ++ bits))
  | last {written octets rest : Bytes} {place : Nat} {lasts body padding bits : List Bool}
      (hbody : Body window written place octets body) (hpadding : padding.length < 8)
      (hplace : (place + (1 + body.length + padding.length)) % 8 = 0)
      (h : Series window (written ++ octets) (place + (1 + body.length + padding.length)) lasts rest
        bits) :
      Series window written place (true :: lasts) (octets ++ rest)
        (true :: (body ++ (padding ++ bits)))

namespace Inflater

variable {w : Nat} {written octets input : Bytes} {bits : List Bool} {d : Inflater}

/-- A decoder that expects a block behind what was written. -/
structure AtBlock (w : Nat) (written : Bytes) (d : Inflater) : Prop where
  mode : d.mode = .field .block 0 0
  pending : d.pending = none
  windowBits : d.windowBits = w
  history : d.history = written.toArray

/-- A decoder at the end of a block. -/
structure AtEnd (w : Nat) (written : Bytes) (last : Bool) (d : Inflater) : Prop where
  pending : d.pending = none
  windowBits : d.windowBits = w
  history : d.history = written.toArray
  last : d.last = last

/-! ### Stored octets -/

/-- One octet. -/
theorem proceeds_stored_one {left : Nat} (hm : d.mode = .stored left) (hp : d.pending = none)
    (hd : d.history = written.toArray) (b : UInt8) (input : Bytes) :
    d.Proceeds (b :: input) [b]
      (({ d with history := (written ++ [b]).toArray } : Inflater).takeStored left) input := by
  have hpush : (d.takeStored left).history.push b = (written ++ [b]).toArray := by
    simp [(d.past_takeStored left).2, hd]
  have hwritten : ({ d.takeStored left with pending := none, history := (written ++ [b]).toArray } :
      Inflater) = ({ d with history := (written ++ [b]).toArray } : Inflater).takeStored left := by
    obtain ⟨windowBits, mode, last, literals, distances, hold, pending, history⟩ := d
    dsimp only at hp
    subst hp
    by_cases hleft : left ≤ 1 <;> cases last <;> simp [takeStored, endBlock, expect, hleft]
  rw [← hwritten, ← hpush]
  exact .turn (Call.Steps.stored (c := d.alone (b :: input)) hp hm rfl Nat.one_ne_zero).turn .refl

/-- The octets of a stored block are written as they are. -/
theorem proceeds_stored (hm : d.mode = .stored octets.length) (hne : octets ≠ [])
    (hp : d.pending = none) (hd : d.history = written.toArray) (input : Bytes) :
    d.Proceeds (octets ++ input) octets
      ({ d with history := (written ++ octets).toArray } : Inflater).endBlock input := by
  induction octets generalizing d written with
  | nil => exact absurd rfl hne
  | cons b octets ih =>
    have hone := proceeds_stored_one hm hp hd b (octets ++ input)
    rcases octets with - | ⟨next, octets⟩
    · exact hone
    · have hmode : ({ d with history := (written ++ [b]).toArray } : Inflater).takeStored
          (b :: next :: octets).length
          = { d with
              mode := .stored (next :: octets).length, history := (written ++ [b]).toArray } := by
        simp [takeStored]
      rw [hmode] at hone
      have hmore := ih (d := { d with
          mode := .stored (next :: octets).length, history := (written ++ [b]).toArray })
        rfl (List.cons_ne_nil _ _) hp rfl
      rw [List.append_assoc] at hmore
      exact hone.trans hmore

/-! ### One block -/

/-- Takes the bits in front of a block: whether it is the last one, and of which kind it is. -/
theorem Faces.header {last : Bool} {kind : Nat} (hkind : kind < 2 ^ 2)
    (h : d.Faces input (last :: (numberBits 2 kind ++ bits))) (hd : d.AtBlock w written) :
    ∃ hold mode input', ({ d with hold, mode } : Inflater).Faces input' bits
      ∧ ∀ e, ({ d with hold, mode } : Inflater).acceptField .block (2 ^ 1 * kind + last.toNat)
        = some e → d.Proceeds input [] e input' := by
  have hlast : last.toNat < 2 ^ 1 := last.toNat_lt
  have hfirst : [last] = numberBits 1 last.toNat := by cases last <;> rfl
  rw [← List.singleton_append, ← List.append_assoc, hfirst, numberBits_append hlast] at h
  exact h.field hd.pending hd.mode (by decide) (by rw [Field.width]; omega)

/-- A stored block behind its header, where the length begins at an octet boundary. -/
theorem Faces.storedBlock (hlength : octets.length < 2 ^ 16) (hbits : bits.length % 8 = 0)
    (hm : d.mode = .field .storedLength 0 0) (hp : d.pending = none)
    (hd : d.history = written.toArray)
    (h : d.Faces input (numberBits 16 octets.length
      ++ (numberBits 16 (2 ^ 16 - 1 - octets.length) ++ (octets.flatMap bitsOf ++ bits)))) :
    ∃ (e : Inflater) (input' : Bytes), d.Proceeds input octets e.endBlock input'
      ∧ e.Faces input' bits ∧ e.AtEnd d.windowBits (written ++ octets) d.last := by
  let v := 2 ^ 16 * (2 ^ 16 - 1 - octets.length) + octets.length
  rw [← List.append_assoc, numberBits_append hlength] at h
  obtain ⟨hold, mode, input₁, hfaces₁, hfield⟩ :=
    h.field (f := .storedLength) hp hm (by decide) (by rw [Field.width]; omega)
  -- Behind the length, the octets begin at an octet boundary, too.
  have hwhole : (octets.flatMap bitsOf ++ bits).length % 8 = 0 := by
    rw [List.length_append, length_flatMap_bitsOf]
    omega
  have hfaces₂ : ({ d with hold, mode } : Inflater).Faces input₁
      ([] ++ (octets.flatMap bitsOf ++ bits)) := hfaces₁
  obtain ⟨hhold, hoctets⟩ := hfaces₂.hold_eq (Nat.zero_lt_succ 7) hwhole
  obtain ⟨input', rfl, hrest⟩ := exists_eq_append_of_flatMap hoctets
  let e : Inflater := { d with hold, mode, history := (written ++ octets).toArray }
  have hrest' : e.Faces input' bits :=
    ⟨hfaces₁.short, by rw [show e.hold = [] from hhold]; exact hrest⟩
  refine ⟨e, input', ?_, hrest', hp, rfl, rfl, rfl⟩
  have hlow : v % 0x10000 = octets.length := by omega
  have hsum : ¬(octets.length + v / 0x10000 ≠ 0xffff) := by omega
  have haccept (e : Inflater) : e.acceptField .storedLength v
      = if octets.length = 0 then some e.endBlock
        else some { e with mode := .stored octets.length } := by
    simp only [acceptField, hlow, if_neg hsum]
  by_cases hnone : octets = []
  · subst hnone
    have hsame : e = { d with hold, mode } := by
      show ({ d with hold, mode, history := (written ++ []).toArray } : Inflater) = _
      rw [List.append_nil, ← hd]
    rw [hsame]
    exact hfield _ (haccept _)
  · have hsome : ¬octets.length = 0 := fun hzero => hnone (List.length_eq_zero_iff.1 hzero)
    have hstored := hfield _ ((haccept _).trans (if_neg hsome))
    exact hstored.trans_quiet (proceeds_stored
      (d := { d with hold, mode := .stored octets.length }) rfl hnone hp hd input')

/-- The data of a block, in any codes. -/
theorem Faces.data {last : Bool} {literals distances : List Nat} {ts : List Token}
    {hold tokenBits word : List Bool} (hliterals : IsDataCode literals)
    (hdistances : IsDataCode distances) (hts : Token.DenoteAll (1 <<< w) written ts octets)
    (hcoded : Token.CodedAll literals distances ts tokenBits)
    (hend : word? literals endOfBlock = some word)
    (h : (inBlock w last literals distances written hold).Faces input
      (tokenBits ++ (word ++ bits))) :
    ∃ (e : Inflater) (input' : Bytes),
      (inBlock w last literals distances written hold).Proceeds input octets e.endBlock
        input' ∧ e.Faces input' bits ∧ e.AtEnd w (written ++ octets) last := by
  obtain ⟨hold₁, input₁, hfaces₁, hproceeds₁⟩ := hts.proceeds hcoded hliterals hdistances h
  obtain ⟨hleads, hne⟩ := hliterals.behind hend
  obtain ⟨hold₂, mode, input₂, hfaces₂, hproceeds₂⟩ := hfaces₁.word rfl rfl hleads hne
  have hdone := hproceeds₁.trans (hproceeds₂ _ rfl)
  rw [List.append_nil] at hdone
  exact ⟨_, input₂, hdone, hfaces₂, rfl, rfl, rfl, rfl⟩

theorem acceptField_fixed (hd : d.AtBlock w written) (last : Bool) (hold : List Bool)
    (mode : Mode) : ({ d with hold, mode } : Inflater).acceptField .block (2 ^ 1 * 1 + last.toNat)
      = some (inBlock w last fixedLiteralLengths fixedDistanceLengths written hold) := by
  obtain ⟨windowBits, mode', last', literals, distances, hold', pending, history⟩ := d
  obtain ⟨rfl, rfl, rfl, rfl⟩ := hd
  cases last <;> rfl

end Inflater

open CodeTree

variable {w place : Nat} {written octets input : Bytes} {bits body : List Bool} {d : Inflater}
  {last : Bool}

theorem getD_ne_zero_of_word? {lengths : List Nat} {symbol : Nat} {word : List Bool}
    (h : word? lengths symbol = some word) : lengths.getD symbol 0 ≠ 0 := by
  unfold word? at h
  rw [List.getD_eq_getElem?_getD]
  split at h
  · cases h
  · cases h
  · next hpos hn =>
    rw [hn]
    exact hpos

/-- A decoder that has a block in front of it writes what it stands for. -/
theorem Body.proceeds (h : Body (1 <<< w) written place octets body) (hd : d.AtBlock w written)
    (hfaces : d.Faces input (last :: (body ++ bits)))
    (halign : (place + (1 + body.length + bits.length)) % 8 = 0) :
    ∃ (e : Inflater) (input' : Bytes), d.Proceeds input octets e.endBlock input'
      ∧ e.Faces input' bits ∧ e.AtEnd w (written ++ octets) last := by
  cases h with
  | @stored padding hlength hpadding hplace =>
    simp only [List.length_append, length_numberBits, length_flatMap_bitsOf] at halign
    simp only [List.append_assoc] at hfaces
    obtain ⟨hold, mode, input₁, hfaces₁, hheader⟩ := hfaces.header (by decide) hd
    -- What is left of the octet is dropped.
    obtain ⟨-, hinput⟩ := hfaces₁.hold_eq hpadding (by
      simp only [List.length_append, length_numberBits, length_flatMap_bitsOf]
      omega)
    let stored := ({ d with hold := [], last } : Inflater).expect .storedLength
    have hstored : d.Proceeds input [] stored input₁ := hheader stored (by cases last <;> rfl)
    obtain ⟨e, input', hproceeds, hrest, hend⟩ := Faces.storedBlock (d := stored) hlength (by omega)
      rfl hd.pending hd.history ⟨Nat.zero_lt_succ 7, hinput⟩
    refine ⟨e, input', hstored.trans_quiet hproceeds, hrest, ?_⟩
    rw [← hd.windowBits]
    exact hend
  | @fixed ts tokenBits word hts hcoded hend =>
    simp only [List.append_assoc] at hfaces
    obtain ⟨hold, mode, input₁, hfaces₁, hheader⟩ := hfaces.header (by decide) hd
    have hdata := hheader _ (acceptField_fixed hd last hold mode)
    have hfaces₂ : (inBlock w last fixedLiteralLengths fixedDistanceLengths written hold).Faces
        input₁ _ := ⟨hfaces₁.short, hfaces₁.eq⟩
    obtain ⟨e, input', hproceeds, hrest⟩ := hfaces₂.data isDataCode_fixedLiteralLengths
      isDataCode_fixedDistanceLengths hts hcoded hend
    exact ⟨e, input', hdata.trans_quiet hproceeds, hrest⟩
  | @dynamic literals distances header ts tokenBits word hliterals hdistances hcodes hts hcoded
      hend =>
    simp only [List.append_assoc] at hfaces
    obtain ⟨hold, mode, input₁, hfaces₁, hheader⟩ := hfaces.header (by decide) hd
    have hcounts := hheader (({ d with hold, last } : Inflater).expect .counts)
      (by cases last <;> rfl)
    obtain ⟨hold₂, input₂, hproceeds₂, hfaces₂⟩ := hcodes.proceeds
      (d := ({ d with hold, last } : Inflater).expect .counts) hliterals hdistances
      (getD_ne_zero_of_word? hend) hd.pending rfl ⟨hfaces₁.short, hfaces₁.eq⟩
    have hblock : ({ ({ d with hold, last } : Inflater).expect .counts with
        hold := hold₂, literals := ofLengths literals, distances := ofLengths distances } :
          Inflater).expectLiteral = inBlock w last literals distances written hold₂ := by
      obtain ⟨windowBits, mode', last', literals, distances, hold', pending, history⟩ := d
      obtain ⟨rfl, rfl, rfl, rfl⟩ := hd
      rfl
    rw [hblock] at hproceeds₂
    have hfaces₃ : (inBlock w last literals distances written hold₂).Faces input₂ _ :=
      ⟨hfaces₂.short, hfaces₂.eq⟩
    obtain ⟨e, input', hproceeds, hrest⟩ :=
      hfaces₃.data hliterals hdistances hts hcoded hend
    exact ⟨e, input', (hcounts.trans_quiet hproceeds₂).trans_quiet hproceeds, hrest⟩

/-! ### Blocks one behind the other -/

section

variable {lasts : List Bool}

/-- Behind a block that is not the last one, the next block is expected. -/
theorem Body.proceeds_block (h : Body (1 <<< w) written place octets body)
    (hd : d.AtBlock w written) (hfaces : d.Faces input (false :: (body ++ bits)))
    (halign : (place + (1 + body.length + bits.length)) % 8 = 0) :
    ∃ e input', d.Proceeds input octets e input' ∧ e.AtBlock w (written ++ octets)
      ∧ e.Faces input' bits := by
  obtain ⟨e, input', hproceeds, hrest, hend⟩ := h.proceeds hd hfaces halign
  rw [endBlock, hend.last, if_neg Bool.false_ne_true] at hproceeds
  exact ⟨_, input', hproceeds, ⟨rfl, hend.pending, hend.windowBits, hend.history⟩, hrest.short,
    hrest.eq⟩

/-- Behind the last block, the decoder is done, and the rest of the octet is dropped. -/
theorem Body.exists_finished {padding : List Bool} (h : Body (1 <<< w) written place octets body)
    (hd : d.AtBlock w written) (hfaces : d.Faces input (true :: (body ++ (padding ++ bits))))
    (hpadding : padding.length < 8) (hplace : (place + (1 + body.length + padding.length)) % 8 = 0)
    (halign : bits.length % 8 = 0) :
    ∃ front more d', input = front ++ more ∧ more.flatMap bitsOf = bits
      ∧ d.Yields front octets d' ∧ d'.mode = .finished := by
  obtain ⟨e, more, hproceeds, hrest, hend⟩ := h.proceeds hd hfaces
    (by rw [List.length_append]; omega)
  obtain ⟨-, hmore⟩ := hrest.hold_eq hpadding halign
  rw [endBlock, hend.last, if_pos rfl] at hproceeds
  obtain ⟨front, hfront, hyields⟩ :=
    hproceeds.exists_yields (List.nil_append more).symm (.done ⟨hend.pending, nofun⟩)
  rw [List.append_nil] at hyields
  exact ⟨front, more, _, hfront, hmore, hyields, rfl⟩

theorem mem_dropLast_cons : true ∈ (false :: lasts).dropLast ↔ true ∈ lasts.dropLast := by
  cases lasts with
  | nil => rfl
  | cons last lasts => simp [List.dropLast_cons_of_ne_nil]

/-- **A stream in which no block but possibly the final one is a last block is read as a whole.** -/
theorem Series.exists_yields (h : Series (1 <<< w) written place lasts octets bits)
    (hlasts : true ∉ lasts.dropLast) (hd : d.AtBlock w written) (hfaces : d.Faces input bits)
    (halign : (place + bits.length) % 8 = 0) :
    ∃ d', d.Yields input octets d' ∧ (true ∉ lasts → d'.BetweenBlocks) := by
  induction h generalizing d input with
  | nil =>
    obtain ⟨hhold, rfl⟩ := hfaces.eq_nil
    exact ⟨d, .done ⟨hd.pending, fun _ => hhold⟩, fun _ => ⟨hd.mode, hhold, hd.pending⟩⟩
  | @block written octets rest place lasts body bits hbody h ih =>
    rw [List.length_cons, List.length_append] at halign
    obtain ⟨e, input', hproceeds, he, hrest⟩ := hbody.proceeds_block hd hfaces (by omega)
    rw [mem_dropLast_cons] at hlasts
    obtain ⟨d', hyields, hbetween⟩ := ih hlasts he hrest (by omega)
    exact ⟨d', hproceeds.yields hyields, fun hnone => hbetween fun hmem =>
      hnone (List.mem_cons_of_mem _ hmem)⟩
  | @last written octets rest place lasts body padding bits hbody hpadding hplace h ih =>
    obtain rfl : lasts = [] := by
      by_contra hne
      rw [List.dropLast_cons_of_ne_nil hne] at hlasts
      exact hlasts List.mem_cons_self
    cases h
    obtain ⟨front, more, d', rfl, hmore, hyields, -⟩ :=
      hbody.exists_finished hd hfaces hpadding hplace rfl
    rw [eq_nil_of_flatMap_bitsOf hmore, List.append_nil, List.append_nil]
    exact ⟨d', hyields, fun hnone => absurd List.mem_cons_self hnone⟩

/-- **Behind a last block, a decoder uses nothing more of a stream that goes on.** -/
theorem Series.exists_finished (h : Series (1 <<< w) written place lasts octets bits)
    (hlasts : true ∈ lasts.dropLast) (hd : d.AtBlock w written) (hfaces : d.Faces input bits)
    (halign : (place + bits.length) % 8 = 0) :
    ∃ front more written d', input = front ++ more ∧ more ≠ [] ∧ written <+: octets
      ∧ d.Yields front written d' ∧ d'.mode = .finished := by
  induction h generalizing d input with
  | nil => cases hlasts
  | @block written octets rest place lasts body bits hbody h ih =>
    rw [List.length_cons, List.length_append] at halign
    obtain ⟨e, input', hproceeds, he, hrest⟩ := hbody.proceeds_block hd hfaces (by omega)
    rw [mem_dropLast_cons] at hlasts
    obtain ⟨front', more, written', d', hinput, hne, hwritten, hyields, hfinished⟩ :=
      ih hlasts he hrest (by omega)
    obtain ⟨front, hfront, hall⟩ := hproceeds.exists_yields hinput hyields
    exact ⟨front, more, _, d', hfront, hne, List.prefix_append_right_inj _ |>.2 hwritten, hall,
      hfinished⟩
  | @last written octets rest place lasts body padding bits hbody hpadding hplace h ih =>
    simp only [List.length_cons, List.length_append] at halign
    obtain ⟨front, more, d', rfl, hmore, hyields, hfinished⟩ :=
      hbody.exists_finished hd hfaces hpadding hplace (by omega)
    refine ⟨front, more, octets, d', rfl, ?_, List.prefix_append _ _, hyields, hfinished⟩
    -- Behind it there is at least one block more, and a block has bits.
    rintro rfl
    rw [← hmore] at h
    cases h
    cases hlasts

/-! ### Streams of octets -/

variable {data : Bytes}

/-- Octets in front of a decoder between two blocks. -/
theorem Inflater.BetweenBlocks.faces (h : d.BetweenBlocks) (data : Bytes) :
    d.Faces data (data.flatMap bitsOf) := by
  refine ⟨?_, ?_⟩
  · rw [h.hold]
    exact Nat.zero_lt_succ 7
  · rw [h.hold]
    rfl

theorem length_flatMap_bitsOf_mod (data : Bytes) :
    (0 + (data.flatMap bitsOf).length) % 8 = 0 := by
  rw [length_flatMap_bitsOf]
  omega

theorem Inflater.BetweenBlocks.exists_yields (h : d.BetweenBlocks)
    (hseries : Series (1 <<< d.windowBits) d.history.toList 0 lasts octets (data.flatMap bitsOf))
    (hlasts : true ∉ lasts.dropLast) :
    ∃ d', d.Yields data octets d' ∧ (true ∉ lasts → d'.BetweenBlocks) :=
  hseries.exists_yields hlasts ⟨h.mode, h.pending, rfl, rfl⟩ (h.faces data)
    (length_flatMap_bitsOf_mod data)

theorem Inflater.BetweenBlocks.exists_finished (h : d.BetweenBlocks)
    (hseries : Series (1 <<< d.windowBits) d.history.toList 0 lasts octets (data.flatMap bitsOf))
    (hlasts : true ∈ lasts.dropLast) :
    ∃ front more written d', data = front ++ more ∧ more ≠ [] ∧ written <+: octets
      ∧ d.Yields front written d' ∧ d'.mode = .finished :=
  hseries.exists_finished hlasts ⟨h.mode, h.pending, rfl, rfl⟩ (h.faces data)
    (length_flatMap_bitsOf_mod data)

end

end WebSocket.Flate
