/-
WebSocket/Proofs/Flate/Deflation.lean

What the compressor writes is read as what it was given.

Design.  The tokens of a part stand for the part, whatever the index has proposed
(`denoteAll_of_tokenize`).  Written in the fixed codes they are a block, and the empty stored block
behind it fills up the last octet (`series_part`).  So what is written of a part is a stream of
blocks that ends with an octet, and before and behind each flush, reader and compressor know the
same octets and the reader is between two blocks (`LzCompressor.ReadBy`).

A flush that is too long for the room of one call is written by more of them.  The first takes all
of the input and the others write what it has kept, so the loop hands over the same flush
(`LzCompressor.deflate_eq`).
-/
import WebSocket.Proofs.Flate.Blocks
import WebSocket.Proofs.Flate.Flushes

namespace WebSocket.Flate

/-! ### Matches -/

section

variable {window i j length distance : Nat} {data : Array UInt8} {index : Index}

/-- Two octets agree if both are there, and then the next ones are compared. -/
theorem agreement_succ (data : Array UInt8) (i j n : Nat) :
    agreement data i j (n + 1) = if i < data.size ∧ j < data.size ∧ data[i]? = data[j]? then
      agreement data (i + 1) (j + 1) n + 1 else 0 := by
  by_cases h : i < data.size ∧ j < data.size
  · refine (dif_pos h).trans ?_
    simp [h.1, h.2]
  · refine (dif_neg h).trans ?_
    rw [if_neg fun hboth => h ⟨hboth.1, hboth.2.1⟩]

theorem agreement_le (data : Array UInt8) (j i n : Nat) : agreement data j i n ≤ n := by
  induction n generalizing j i with
  | zero => exact Nat.le_refl _
  | succ n ih =>
    rw [agreement_succ]
    split
    · exact Nat.succ_le_succ (ih _ _)
    · exact Nat.zero_le _

theorem add_agreement_le (hi : i ≤ data.size) (j n : Nat) :
    i + agreement data j i n ≤ data.size := by
  induction n generalizing j i with
  | zero => exact hi
  | succ n ih =>
    rw [agreement_succ]
    split
    · next hboth =>
      have hrest := ih (i := i + 1) hboth.2.1 (j + 1)
      omega
    · exact hi

/-- Octets that agree with those `i - j` before them repeat these, also where they overlap. -/
theorem repeats_of_agreement (h : j < i) (n : Nat) :
    Repeats (i - j) (data.toList.take i) ((data.toList.drop i).take (agreement data j i n)) := by
  induction n generalizing j i with
  | zero => exact trivial
  | succ n ih =>
    rw [agreement_succ]
    split
    · next hboth =>
      obtain ⟨-, hlt, hsame⟩ := hboth
      have hlt : i < data.toList.length := hlt
      have hnext := ih (i := i + 1) (j := j + 1) (Nat.succ_lt_succ h)
      rw [Nat.add_sub_add_right] at hnext
      rw [List.drop_eq_getElem_cons hlt, List.take_succ_cons]
      refine ⟨?_, ?_⟩
      · rw [List.length_take, Nat.min_eq_left (Nat.le_of_lt hlt),
          Nat.sub_sub_self (Nat.le_of_lt h), List.getElem?_take_of_lt h, Array.getElem?_toList,
          hsame, ← Array.getElem?_toList, List.getElem?_eq_getElem hlt]
      · rw [← List.take_append_getElem hlt] at hnext
        exact hnext
    · exact trivial

theorem exists_of_proposal? (h : proposal? window data index i = some (length, distance)) :
    ∃ j, j < i ∧ distance = i - j ∧ distance ≤ window ∧ minMatch ≤ length
      ∧ length = agreement data j i maxMatch := by
  unfold proposal? at h
  obtain ⟨key, -, h⟩ := Option.bind_eq_some_iff.1 h
  obtain ⟨j, -, h⟩ := Option.bind_eq_some_iff.1 h
  dsimp only at h
  split at h
  · next hall =>
    cases h
    exact ⟨j, hall.1, rfl, hall.2.1, hall.2.2, rfl⟩
  · cases h

/-- What the index proposes stands for the octets at hand. -/
theorem denotes_of_proposal? (hi : i ≤ data.size)
    (h : proposal? window data index i = some (length, distance)) :
    (Token.reference length distance).Denotes window (data.toList.take i)
      ((data.toList.drop i).take length) := by
  obtain ⟨j, hj, rfl, hwindow, hmin, rfl⟩ := exists_of_proposal? h
  have hfits := add_agreement_le hi j maxMatch
  refine .reference ?_ hmin (agreement_le ..) (Nat.sub_pos_of_lt hj) hwindow ?_
    (repeats_of_agreement hj maxMatch)
  · rw [List.length_take, List.length_drop, Array.length_toList]
    omega
  · rw [List.length_take, Array.length_toList]
    omega

/-- Each octet from place `i` on is in a token, if there are turns enough. -/
theorem denoteAll_of_tokenize {n : Nat} (hn : data.size ≤ i + n) (hi : i ≤ data.size)
    (index : Index) (acc : Array Token) :
    ∃ ts, (tokenize window data n index i acc).1.toList = acc.toList ++ ts
      ∧ Token.DenoteAll window (data.toList.take i) ts (data.toList.drop i) := by
  induction n generalizing i index acc with
  | zero =>
    refine ⟨[], (List.append_nil _).symm, ?_⟩
    rw [List.drop_eq_nil_of_le (by simpa using hn)]
    exact .nil
  | succ n ih =>
    unfold tokenize
    split
    · next hlt =>
      split
      · next length distance hproposal =>
        obtain ⟨j, -, -, -, hmin, hlength⟩ := exists_of_proposal? hproposal
        have hfits := add_agreement_le hi j maxMatch
        have hpos : 0 < length := Nat.lt_of_lt_of_le (by decide) hmin
        obtain ⟨ts, hts, hdenote⟩ := ih (i := i + length) (by omega) (by omega)
          (index.note data i) (acc.push (.reference length distance))
        refine ⟨.reference length distance :: ts, by simp [hts], ?_⟩
        rw [← List.take_append_drop length (data.toList.drop i), List.drop_drop]
        refine .cons (denotes_of_proposal? hi hproposal) ?_
        rw [← List.take_add]
        exact hdenote
      · obtain ⟨ts, hts, hdenote⟩ := ih (i := i + 1) (by omega) hlt (index.note data i)
          (acc.push (.literal data[i]))
        refine ⟨.literal data[i] :: ts, by simp [hts], ?_⟩
        rw [List.drop_eq_getElem_cons hlt, ← List.singleton_append]
        refine .cons (.literal _) ?_
        rw [← List.take_append_getElem hlt] at hdenote
        exact hdenote
    · next hge =>
      refine ⟨[], (List.append_nil _).symm, ?_⟩
      rw [List.drop_eq_nil_of_le (by simpa using hge)]
      exact .nil

end

/-! ### Bits in octets -/

theorem testBit_bitsToNat (bits : List Bool) (i : Nat) :
    (bitsToNat bits).testBit i = bits.getD i false := by
  induction bits generalizing i with
  | nil => simp [bitsToNat]
  | cons bit bits ih =>
    have hcons : bitsToNat (bit :: bits) = (if bit then 1 else 0) + 2 * bitsToNat bits := rfl
    rw [hcons]
    cases i with
    | zero => cases bit <;> simp [Nat.testBit_zero]
    | succ i =>
      have hhalf : ((if bit then 1 else 0) + 2 * bitsToNat bits) / 2 = bitsToNat bits := by
        split <;> omega
      rw [Nat.testBit_succ, hhalf, ih]
      rfl

/-- An octet is filled up with zeros. -/
theorem bitsOf_bitsToNat {bits : List Bool} (h : bits.length ≤ 8) :
    Inflater.bitsOf (UInt8.ofNat (bitsToNat bits))
      = bits ++ List.replicate (8 - bits.length) false := by
  refine List.ext_getElem (by simp [Inflater.bitsOf, h]) fun i hi hi' => ?_
  have hlt : i < 8 := by simpa [Inflater.bitsOf] using hi
  have hbit : (UInt8.ofNat (bitsToNat bits)).toNat.testBit i = bits.getD i false := by
    rw [UInt8.toNat_ofNat', Nat.testBit_mod_two_pow, testBit_bitsToNat]
    simp [hlt]
  simp only [Inflater.bitsOf, List.getElem_map, List.getElem_range, hbit, List.getElem_append]
  split
  · next hin => simp [hin]
  · next hout => simp [List.getElem?_eq_none (Nat.not_lt.1 hout)]

theorem exists_flatMap_packInto (acc : Array UInt8) (bits : List Bool) :
    ∃ zeros, zeros.length < 8 ∧ (packInto acc bits).toList.flatMap Inflater.bitsOf
      = acc.toList.flatMap Inflater.bitsOf ++ (bits ++ zeros) := by
  fun_induction packInto acc bits with
  | case1 acc a b c d e f g h bits ih =>
    obtain ⟨zeros, hzeros, heq⟩ := ih
    refine ⟨zeros, hzeros, ?_⟩
    rw [heq, Array.toList_push, List.flatMap_append, List.flatMap_singleton,
      bitsOf_bitsToNat (by simp), List.append_assoc]
    rfl
  | case2 acc => exact ⟨[], by decide, by simp⟩
  | case3 acc bits hmany hsome =>
    -- Here the last octet is not full.
    have hlength : bits.length < 8 := by
      by_contra hlong
      rcases bits with - | ⟨a, - | ⟨b, - | ⟨c, - | ⟨d, - | ⟨e, - | ⟨f, - | ⟨g, - | ⟨h, bits⟩⟩⟩⟩⟩⟩⟩⟩
      case cons.cons.cons.cons.cons.cons.cons.cons => exact hmany _ _ _ _ _ _ _ _ _ rfl
      all_goals exact hlong (by simp)
    have hpos : 0 < bits.length := List.length_pos_iff.2 hsome
    refine ⟨List.replicate (8 - bits.length) false, by rw [List.length_replicate]; omega, ?_⟩
    rw [Array.toList_push, List.flatMap_append, List.flatMap_singleton,
      bitsOf_bitsToNat (Nat.le_of_lt hlength)]

/-- The octets that bits are packed into hold these bits, and zeros behind them. -/
theorem exists_flatMap_pack (bits : List Bool) :
    ∃ zeros, zeros.length < 8 ∧ (pack bits).flatMap Inflater.bitsOf = bits ++ zeros :=
  exists_flatMap_packInto #[] bits

/-! ### Blocks -/

section

variable {window place : Nat} {written octets : Bytes} {zeros : List Bool} {ts : List Token}

/-- The tokens of a block, written as the compressor writes them. -/
theorem body_fixed (hts : Token.DenoteAll window written ts octets) (hwindow : window ≤ 32768) :
    Body window written place octets
      (numberBits 2 1 ++ (ts.flatMap Token.bits ++ fixedWord endOfBlock)) :=
  .fixed hts (hts.codedAll_bits hwindow) (word?_fixedLiteralLengths (by decide))

/-- The marker is the length of a stored block, which is zero, and its complement. -/
theorem flatMap_flushMarker : flushMarker.flatMap Inflater.bitsOf
    = numberBits 16 0 ++ (numberBits 16 (2 ^ 16 - 1) ++ []) := by
  decide +kernel

/-- The empty stored block of a flush. -/
theorem series_flush (hzeros : zeros.length < 8) (hplace : (place + 3 + zeros.length) % 8 = 0) :
    Series window written place [false] []
      ([false, false, false] ++ (zeros ++ flushMarker.flatMap Inflater.bitsOf)) := by
  have hbody : Body window written place []
      (numberBits 2 0 ++ (zeros ++ flushMarker.flatMap Inflater.bitsOf)) := by
    rw [flatMap_flushMarker]
    exact .stored (Nat.two_pow_pos 16) hzeros hplace
  have hblock := Series.block hbody .nil
  rwa [List.append_nil, List.append_nil] at hblock

/-- The block of a part, and the one of the flush. -/
theorem series_part (hts : Token.DenoteAll window written ts octets) (hwindow : window ≤ 32768) :
    Series window written 0 [false, false] octets
      ((pack (blockBits ts ++ [false, false, false]) ++ flushMarker).flatMap Inflater.bitsOf) := by
  obtain ⟨zeros, hzeros, hpack⟩ := exists_flatMap_pack (blockBits ts ++ [false, false, false])
  let body := numberBits 2 1 ++ (ts.flatMap Token.bits ++ fixedWord endOfBlock)
  have hbits : blockBits ts = false :: body := List.append_assoc ..
  have hlength := congrArg List.length hpack
  rw [Inflater.length_flatMap_bitsOf, hbits, List.length_append, List.length_append,
    List.length_cons, List.length_cons, List.length_cons, List.length_cons, List.length_nil]
    at hlength
  have hbody : Body window written 0 octets body := body_fixed hts hwindow
  have hblocks := Series.block hbody (series_flush hzeros (by omega))
  rw [List.flatMap_append, hpack, hbits, ← List.append_nil octets]
  simpa using hblocks

/-- The block of the flush alone. -/
theorem series_empty : Series window written 0 [false] []
    ((pack [false, false, false] ++ flushMarker).flatMap Inflater.bitsOf) := by
  obtain ⟨zeros, hzeros, hpack⟩ := exists_flatMap_pack [false, false, false]
  have hlength := congrArg List.length hpack
  rw [Inflater.length_flatMap_bitsOf, List.length_append, List.length_cons, List.length_cons,
    List.length_cons, List.length_nil] at hlength
  rw [List.flatMap_append, hpack, List.append_assoc]
  exact series_flush hzeros (by omega)

end

/-! ### The compressor -/

namespace LzCompressor

/-- The loop writes what was kept and what the flush has to write, in as many calls as it takes. -/
theorem deflateFrom_eq (c : LzCompressor) (input output : Bytes) (capacity : Nat) :
    deflateFrom c input output capacity
      = ({ (c.flush input).1 with ready := [] }, .ok (output ++ c.unwritten input)) := by
  induction c, input, output, capacity using deflateFrom.induct with
  | case1 c input output capacity size c' herror => cases herror
  | case2 c input output capacity size a ha total hdone =>
    obtain rfl := Except.ok.inj ha
    rw [deflateFrom_of_advance rfl ha, if_pos hdone]
    -- Room is left, or there was nothing to write.
    have hroom : markerRoom < size - output.length := markerRoom_lt rfl
    have hall : (c.unwritten input).length ≤ size - output.length := by
      by_contra hlong
      have hfull := congrArg List.length (output_advance c input (size - output.length))
      rw [List.length_take_of_le (Nat.le_of_not_le hlong)] at hfull
      rcases hdone.2 with hleft | ⟨-, hnone⟩
      · have hlt : output.length + (c.advance input (size - output.length)).output.length < size :=
          hleft
        omega
      · rw [hnone, List.length_nil] at hfull
        omega
    rw [output_advance, state_advance, List.take_of_length_le hall, List.drop_eq_nil_of_le hall]
  | case3 c input output capacity size a ha total hdone hstalled =>
    -- A call takes all of the input, so one that does nothing is the last one.
    obtain rfl := Except.ok.inj ha
    exact absurd ⟨rfl, .inr hstalled⟩ hdone
  | case4 c input output capacity size a ha total hdone hstalled ih =>
    obtain rfl := Except.ok.inj ha
    -- The next call finds no input, but what was kept.
    rw [deflateFrom_of_advance rfl ha, if_neg hdone, if_neg hstalled, ih, unwritten_advance,
      flush_advance, output_advance, state_advance, List.append_assoc, List.take_append_drop]

/-- The loop comes to the same as a flush for which there is room at once. -/
theorem deflate_eq {c : LzCompressor} (hc : c.ready = []) (input : Bytes) :
    deflate c input = ((c.flush input).1, .ok (c.flush input).2) := by
  have hready : (c.flush input).1.ready = [] := (ready_flush c input).trans hc
  rw [deflate, deflateFrom_eq, unwritten, hready, List.nil_append, List.nil_append, ← hready]

theorem isSteady (windowBits : Nat) : IsSteady LzCompressor windowBits :=
  fun c _ input room _ => ⟨c.advance input room, rfl, fun h => .inl (List.length_pos_iff.2 h)⟩

/-- The decoder `d` has read all that the compressor `c` has written, and nothing was kept. -/
structure ReadBy (c : LzCompressor) (d : Inflater) : Prop where
  ready : c.ready = []
  between : d.BetweenBlocks
  windowBits : d.windowBits = c.windowBits
  history : d.history = c.history

theorem ReadBy.flush {c : LzCompressor} {d : Inflater} (h : c.ReadBy d) (hw : d.windowBits ≤ 15)
    (part : Bytes) : ∃ d', d.Yields (c.flush part).2 part d' ∧ (c.flush part).1.ReadBy d'
      ∧ (flushMarker <:+ (c.flush part).2 ∨ (c.flush part).2 = []) := by
  have hnext {c' : LzCompressor} {written : Bytes} {d' : Inflater} (hd' : d.Yields written part d')
      (hbetween : d'.BetweenBlocks) (hready : c'.ready = c.ready)
      (hwindow : c'.windowBits = c.windowBits)
      (hhistory : c'.history = c.history ++ part.toArray) : c'.ReadBy d' := by
    refine ⟨hready.trans h.ready, hbetween, hd'.past.1.trans (h.windowBits.trans hwindow.symm), ?_⟩
    rw [hhistory, ← h.history, ← Array.toList_inj, hd'.past.2, Array.toList_append]
  unfold LzCompressor.flush
  split
  · next hempty =>
    obtain rfl := List.isEmpty_iff.1 hempty
    split
    · -- There is nothing to write, so there is nothing to read.
      have hd : d.Yields [] [] d := .done ⟨h.between.pending, fun _ => h.between.hold⟩
      exact ⟨d, hd, h, .inr rfl⟩
    · obtain ⟨d', hd', hbetween⟩ := h.between.exists_yields series_empty (by decide)
      exact ⟨d', hd', hnext hd' (hbetween (by decide)) rfl rfl (by simp),
        .inl (List.suffix_append _ _)⟩
  · let data := c.history ++ part.toArray
    have hsize : data.size = c.history.size + part.length := by simp [data]
    obtain ⟨ts, hts, hdenote⟩ :
        ∃ ts, (tokenize (1 <<< c.windowBits) data part.length c.index c.history.size #[]).1.toList
            = #[].toList ++ ts
          ∧ Token.DenoteAll (1 <<< c.windowBits) (data.toList.take c.history.size) ts
            (data.toList.drop c.history.size) :=
      denoteAll_of_tokenize (Nat.le_of_eq hsize) (by omega) c.index #[]
    have hfront : data.toList.take c.history.size = d.history.toList := by simp [data, h.history]
    have hback : data.toList.drop c.history.size = part := by simp [data]
    rw [hfront, hback, ← h.windowBits] at hdenote
    obtain ⟨d', hd', hbetween⟩ :=
      h.between.exists_yields (series_part hdenote (one_shiftLeft_le hw)) (by decide)
    rw [← List.nil_append ts, ← Array.toList_empty, ← hts] at hd'
    exact ⟨d', hd', hnext hd' (hbetween (by decide)) rfl rfl rfl, .inl (List.suffix_append _ _)⟩

/-- After any flushes, there is a decoder that has read them. -/
theorem exists_readBy {windowBits : Nat} (hw : windowBits ≤ 15) (parts : List Bytes) :
    ∃ d, ({ windowBits } : Inflater).Yields (flushes LzCompressor windowBits parts).2
        parts.flatten d ∧ (flushes LzCompressor windowBits parts).1.ReadBy d := by
  induction parts using List.reverseRecOn with
  | nil => exact ⟨_, .done ⟨rfl, fun _ => rfl⟩, rfl, ⟨rfl, rfl, rfl⟩, rfl, rfl⟩
  | append_singleton front part ih =>
    obtain ⟨d, hd, hread⟩ := ih
    obtain ⟨d', hd', hread', -⟩ := hread.flush (hd.past.1 ▸ hw) part
    rw [flushes_concat, deflate_eq hread.ready, List.flatten_append, List.flatten_singleton]
    exact ⟨d', hd.append hd', hread'⟩

/-- **What the compressor writes can be read flush by flush.**  Whatever the parts of a message
are, and whatever matches the index proposes, what was written up to a flush inflates to the
parts that were given up to then.  The window is no larger than the format allows. -/
theorem syncFlushes {windowBits : Nat} (hw : windowBits ≤ 15) (parts : List Bytes) :
    SyncFlushes LzCompressor windowBits parts := by
  refine ⟨isSteady windowBits, ?_⟩
  intro front part hfront written flushed hflushed
  obtain ⟨d, hd, hread⟩ := exists_readBy hw front
  rw [deflate_eq hread.ready] at hflushed
  obtain rfl := Except.ok.inj hflushed
  obtain ⟨d', hd', hread', hmarker⟩ := hread.flush (hd.past.1 ▸ hw) part
  exact ⟨d', hd.append hd', hmarker.imp id fun hnone => ⟨hnone, hread'.between⟩⟩

end LzCompressor

end WebSocket.Flate
