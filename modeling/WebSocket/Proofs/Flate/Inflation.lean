/-
WebSocket/Proofs/Flate/Inflation.lean

What a decoder makes of octets, however it is called.

Design.  A call of a decoder is a sequence of turns, and it stops where the room is used up.
`Yields` is the same sequence without calls: every turn has room, and a match reaches back no
further than the window.  It says what octets mean to a decoder, and it can be cut and put
together at any octet (`Yields.append`, `Yields.of_append`).

A call goes along with it as far as the room allows (`Follows.run`), also if its decoder has a
larger window.  What one call leaves is taken up by the next one, so all calls together come to
the same end, and to no other (`inflateFrom_of_yields`).  Octets behind the end of a stream are not
taken by any call, which is an error (`inflate_append_eq`).
-/
import WebSocket.Flate.Inflater
import WebSocket.Flate.Limit
import WebSocket.Flate.Compressor

namespace WebSocket.Flate

/-- Whether the next thing that a decoder takes is a bit. -/
def Mode.takesBits : Mode → Bool
  | .field .. | .word .. => true
  | .stored _ | .finished => false

theorem Mode.takesBits_of_ne {m : Mode} (hfinished : m ≠ .finished)
    (hstored : ∀ left, m ≠ .stored left) : m.takesBits := by
  cases m with
  | field | word => rfl
  | stored left => exact absurd rfl (hstored left)
  | finished => exact absurd rfl hfinished

namespace Inflater

/-! ### Bits and the past

What a decoder makes of a bit depends neither on the size of the window nor on what was written
before. -/

/-- The same decoder with another window, in front of which something else was written. -/
def withPast (w : Nat) (past : Array UInt8) (d : Inflater) : Inflater :=
  { d with windowBits := w, history := past }

section

variable (w : Nat) (past : Array UInt8) (d : Inflater)

@[simp] theorem endBlock_withPast :
    (d.withPast w past).endBlock = d.endBlock.withPast w past := by
  unfold endBlock withPast
  dsimp only
  split <;> rfl

@[simp] theorem takeStored_withPast (left : Nat) :
    (d.withPast w past).takeStored left = (d.takeStored left).withPast w past := by
  unfold takeStored
  split
  · exact endBlock_withPast w past d
  · rfl

@[simp] theorem startDynamic_withPast (counts : WordCounts) (lengths : List Nat) :
    (d.withPast w past).startDynamic counts lengths
      = (d.startDynamic counts lengths).map (withPast w past) := by
  unfold startDynamic
  split
  · rfl
  · rcases CodeTree.forData? (lengths.take counts.literal) with - | literals
    · rfl
    · rcases CodeTree.forData? (lengths.drop counts.literal) with - | distances <;> rfl

@[simp] theorem expectLengths_withPast (counts : WordCounts) (code : CodeTree)
    (seen : List Nat) : (d.withPast w past).expectLengths counts code seen
      = (d.expectLengths counts code seen).map (withPast w past) := by
  unfold expectLengths
  dsimp only
  split
  · rfl
  · split
    · exact startDynamic_withPast w past d counts _
    · rfl

@[simp] theorem expectMetaLength_withPast (counts : WordCounts) (seen : List Nat) :
    (d.withPast w past).expectMetaLength counts seen
      = (d.expectMetaLength counts seen).map (withPast w past) := by
  unfold expectMetaLength
  split
  · rfl
  · dsimp only
    rcases CodeTree.forLengths? _ with - | code
    · rfl
    · exact expectLengths_withPast w past d counts code []

theorem acceptField_withPast (f : Field) (value : Nat) :
    (d.withPast w past).acceptField f value = (d.acceptField f value).map (withPast w past) := by
  cases f with
  | block =>
    simp only [acceptField]
    split <;> rfl
  | storedLength =>
    simp only [acceptField]
    split
    · rfl
    · split
      · exact congrArg some (endBlock_withPast w past d)
      · rfl
  | counts =>
    simp only [acceptField]
    split
    · rfl
    · exact expectMetaLength_withPast w past d _ []
  | metaLength counts seen => exact expectMetaLength_withPast w past d counts _
  | repetition counts code seen repeated least width =>
    simp only [acceptField]
    split
    · rfl
    · exact expectLengths_withPast w past d counts code _
    · exact expectLengths_withPast w past d counts code _
  | lengthExtra least width => rfl
  | distanceExtra length least width => rfl

theorem acceptSymbol_withPast (alphabet : Alphabet) (symbol : Nat) :
    (d.withPast w past).acceptSymbol alphabet symbol
      = (d.acceptSymbol alphabet symbol).map (withPast w past) := by
  cases alphabet with
  | lengths counts code seen =>
    simp only [acceptSymbol]
    split
    · exact expectLengths_withPast w past d counts code _
    · repeat' split
      all_goals rfl
  | literal =>
    simp only [acceptSymbol]
    split
    · rfl
    · split
      · exact congrArg some (endBlock_withPast w past d)
      · split <;> rfl
  | distance length =>
    simp only [acceptSymbol]
    split <;> rfl

theorem acceptBit_withPast (bit : Bool) :
    (d.withPast w past).acceptBit bit = (d.acceptBit bit).map (withPast w past) := by
  rcases hm : d.mode with ⟨f, got, value⟩ | ⟨alphabet, rest⟩ | left | -
  · have hm' : (d.withPast w past).mode = .field f got value := hm
    simp only [acceptBit, hm, hm']
    split <;> split
    all_goals first | rfl | exact acceptField_withPast w past d f _
  · have hm' : (d.withPast w past).mode = .word alphabet rest := hm
    simp only [acceptBit, hm, hm']
    split
    · rfl
    · exact acceptSymbol_withPast w past d alphabet _
    · rfl
  · have hm' : (d.withPast w past).mode = .stored left := hm
    simp only [acceptBit, hm, hm', Option.map_some]
  · have hm' : (d.withPast w past).mode = .finished := hm
    simp only [acceptBit, hm, hm', Option.map_some]

end

/-- So neither is changed by a bit. -/
theorem past_of_acceptBit {d e : Inflater} {bit : Bool} (h : d.acceptBit bit = some e) :
    e.windowBits = d.windowBits ∧ e.history = d.history := by
  have hsame := acceptBit_withPast d.windowBits d.history d bit
  rw [show d.withPast d.windowBits d.history = d from rfl, h] at hsame
  rw [Option.some.inj hsame]
  exact ⟨rfl, rfl⟩

theorem past_takeStored (d : Inflater) (left : Nat) :
    (d.takeStored left).windowBits = d.windowBits ∧ (d.takeStored left).history = d.history := by
  have hsame := takeStored_withPast d.windowBits d.history d left
  rw [show d.withPast d.windowBits d.history = d from rfl] at hsame
  rw [hsame]
  exact ⟨rfl, rfl⟩

/-! ### One turn -/

namespace Call

/-- All that one turn can do. -/
inductive Steps (c : Call) : Call → Prop
  | literal {b : UInt8} (hp : c.decoder.pending = some (.literal b)) (hroom : c.room ≠ 0) :
      Steps c (c.emit b none)
  | copy {length distance : Nat} (hp : c.decoder.pending = some (.copy length distance))
      (hroom : c.room ≠ 0) (hnear : distance ≤ c.output.size + c.reach) :
      Steps c (c.emit
        (c.decoder.history.getD (c.decoder.history.size - distance) 0)
        (if length ≤ 1 then none else some (.copy (length - 1) distance)))
  | stored {left : Nat} {b : UInt8} {input : Bytes} (hp : c.decoder.pending = none)
      (hm : c.decoder.mode = .stored left) (hi : c.input = b :: input) (hroom : c.room ≠ 0) :
      Steps c ({ c with decoder := c.decoder.takeStored left, input }.emit b none)
  | bit {bit : Bool} {hold : List Bool} {d : Inflater} (hp : c.decoder.pending = none)
      (hm : c.decoder.mode.takesBits) (hh : c.decoder.hold = bit :: hold)
      (hd : { c.decoder with hold }.acceptBit bit = some d) : Steps c { c with decoder := d }
  | octet {b : UInt8} {input : Bytes} (hp : c.decoder.pending = none)
      (hm : c.decoder.mode.takesBits) (hh : c.decoder.hold = []) (hi : c.input = b :: input) :
      Steps c { c with decoder := { c.decoder with hold := bitsOf b }, input }

theorem steps_of_turn {c e : Call} (h : c.turn = .next e) : c.Steps e := by
  unfold turn at h
  split at h
  · next b hp =>
    split at h
    · cases h
    · next hroom =>
      cases h
      exact .literal hp hroom
  · next length distance hp =>
    split at h
    · cases h
    · next hroom =>
      split at h
      · cases h
      · next hnear =>
        cases h
        exact .copy hp hroom (Nat.not_lt.1 hnear)
  · next hp =>
    split at h
    · cases h
    · next left hm =>
      split at h
      · cases h
      · next b input hi =>
        split at h
        · cases h
        · next hroom =>
          cases h
          exact .stored hp hm hi hroom
    · next hfinished hstored =>
      have hm := Mode.takesBits_of_ne hfinished hstored
      split at h
      · next bit hold hh =>
        split at h
        · cases h
        · next d hd =>
          cases h
          exact .bit hp hm hh hd
      · next hh =>
        split at h
        · cases h
        · next b input hi =>
          cases h
          exact .octet hp hm hh hi

theorem Steps.turn {c e : Call} (h : c.Steps e) : c.turn = .next e := by
  cases h with
  | literal hp hroom => simp only [Call.turn, hp, if_neg hroom]
  | copy hp hroom hnear =>
    simp only [Call.turn, hp, if_neg hroom, if_neg (Nat.not_lt.2 hnear)]
  | stored hp hm hi hroom => simp only [Call.turn, hp, hm, hi, if_neg hroom]
  | bit hp hm hh hd =>
    unfold Call.turn
    rw [hp]
    dsimp only
    split
    · next hfinished => simp [hfinished, Mode.takesBits] at hm
    · next left hstored => simp [hstored, Mode.takesBits] at hm
    · simp only [hh, hd]
  | octet hp hm hh hi =>
    unfold Call.turn
    rw [hp]
    dsimp only
    split
    · next hfinished => simp [hfinished, Mode.takesBits] at hm
    · next left hstored => simp [hstored, Mode.takesBits] at hm
    · simp only [hh, hi]

end Call

/-- A turn uses input from the front. -/
theorem suffix_of_turn {c e : Call} (h : c.turn = .next e) : e.input <:+ c.input := by
  cases Call.steps_of_turn h with
  | literal | copy | bit => exact List.suffix_rfl
  | stored _ _ hi | octet _ _ _ hi =>
    rw [hi]
    exact List.suffix_cons _ _

/-! ### What octets mean -/

/-- A call that has room for one octet. -/
def alone (d : Inflater) (input : Bytes) : Call :=
  d.call input 1

/-- A decoder that can do nothing without more input. -/
structure Starved (d : Inflater) : Prop where
  pending : d.pending = none
  hold : d.mode.takesBits → d.hold = []

theorem Starved.turn {c : Call} (h : c.decoder.Starved) (hi : c.input = []) :
    c.turn = .blocked c := by
  unfold Call.turn
  rw [h.pending]
  dsimp only
  split
  · rfl
  · rw [hi]
  · next hfinished hstored =>
    rw [h.hold (Mode.takesBits_of_ne hfinished hstored), hi]

/-- The decoder `d` uses up `input` and writes `output`.  Then it is `d'` and can do nothing
without more input. -/
inductive Yields : (d : Inflater) → (input output : Bytes) → (d' : Inflater) → Prop
  | done {d : Inflater} (h : d.Starved) : Yields d [] [] d
  | turn {d d' : Inflater} {input rest : Bytes} {c : Call} (h : (d.alone input).turn = .next c)
      (hc : Yields c.decoder c.input rest d') : Yields d input (c.output.toList ++ rest) d'

/-- A turn in which nothing is written. -/
theorem Yields.of_steps {d d' : Inflater} {input rest : Bytes} {c : Call}
    (hs : (d.alone input).Steps c) (ho : c.output = #[]) (hc : c.decoder.Yields c.input rest d') :
    d.Yields input rest d' := by
  have hturn := Yields.turn hs.turn hc
  rw [ho] at hturn
  exact hturn

/-- What is written becomes the past. -/
theorem past_of_turn {d : Inflater} {input : Bytes} {e : Call}
    (h : (d.alone input).turn = .next e) :
    e.decoder.windowBits = d.windowBits ∧ e.decoder.history = d.history ++ e.output := by
  cases Call.steps_of_turn h with
  | literal | copy => exact ⟨rfl, Array.push_eq_append⟩
  | @stored left =>
    obtain ⟨hbits, hhistory⟩ := d.past_takeStored left
    refine ⟨hbits, ?_⟩
    simp [Call.emit, alone, call, hhistory]
  | bit _ _ _ hd =>
    obtain ⟨hbits, hhistory⟩ := past_of_acceptBit hd
    exact ⟨hbits, hhistory.trans (Array.append_empty).symm⟩
  | octet => exact ⟨rfl, (Array.append_empty).symm⟩

namespace Call

/-- A call that does what the decoder `d` would do with `input`: there may be more input behind
it, the window may be larger, and there may be some output already. -/
structure Follows (c : Call) (d : Inflater) (input more : Bytes) : Prop where
  decoder : c.decoder = d.withPast c.decoder.windowBits d.history
  input : c.input = input ++ more
  reach : min (1 <<< d.windowBits) d.history.size ≤ c.output.size + c.reach

/-- The call `c` behind what `e` has done, with more input. -/
def join (c e : Call) (more : Bytes) : Call where
  decoder := e.decoder.withPast c.decoder.windowBits e.decoder.history
  input := e.input ++ more
  room := c.room - e.output.size
  reach := c.reach
  output := c.output ++ e.output

variable {c e : Call} {d : Inflater} {input more : Bytes}

theorem Follows.join (h : c.Follows d input more) (he : (d.alone input).turn = .next e) :
    (c.join e more).Follows e.decoder e.input more := by
  obtain ⟨hbits, hhistory⟩ := past_of_turn he
  have hreach := h.reach
  refine ⟨rfl, rfl, ?_⟩
  rw [hbits, hhistory]
  simp only [Call.join, Array.size_append]
  omega

theorem join_emit {a : Call}
    (hd : c.decoder = a.decoder.withPast c.decoder.windowBits a.decoder.history)
    (hi : c.input = a.input ++ more) (ho : a.output = #[]) (b : UInt8)
    (pending : Option Emission) : c.join (a.emit b pending) more = c.emit b pending := by
  obtain ⟨D, input', room, reach, output⟩ := c
  dsimp only at hd hi
  generalize D.windowBits = w at hd
  subst hd hi
  simp [Call.join, emit, withPast, ho]

/-- Whoever follows does the same in one turn, unless there is no room for it. -/
theorem Follows.turn (h : c.Follows d input more) (he : (d.alone input).turn = .next e) :
    c.turn = .next (c.join e more) ∨ c.room = 0 ∧ c.turn = .blocked c := by
  have hpending : c.decoder.pending = d.pending := by rw [h.decoder]; rfl
  have hmode : c.decoder.mode = d.mode := by rw [h.decoder]; rfl
  have hhold : c.decoder.hold = d.hold := by rw [h.decoder]; rfl
  have hhistory : c.decoder.history = d.history := by rw [h.decoder]; rfl
  have hi := h.input
  cases steps_of_turn he with
  | @literal b hp =>
    have hp' : c.decoder.pending = some (.literal b) := hpending.trans hp
    by_cases hroom : c.room = 0
    · exact .inr ⟨hroom, by simp only [Call.turn, hp', if_pos hroom]⟩
    · rw [(Steps.literal hp' hroom).turn, join_emit h.decoder hi rfl]
      exact .inl rfl
  | @copy length distance hp _ hnear =>
    have hp' : c.decoder.pending = some (.copy length distance) := hpending.trans hp
    by_cases hroom : c.room = 0
    · exact .inr ⟨hroom, by simp only [Call.turn, hp', if_pos hroom]⟩
    · have hnear' : distance ≤ c.output.size + c.reach := by
        refine Nat.le_trans hnear (Nat.le_trans ?_ h.reach)
        simp [alone, call]
      rw [(Steps.copy hp' hroom hnear').turn, join_emit h.decoder hi rfl, hhistory]
      exact .inl rfl
  | @stored left b rest hp hm hr =>
    have hi' : c.input = b :: (rest ++ more) := by rw [hi, show input = b :: rest from hr]; rfl
    have hm' : c.decoder.mode = .stored left := hmode.trans hm
    by_cases hroom : c.room = 0
    · exact .inr ⟨hroom, by simp only [Call.turn, hpending.trans hp, hm', hi', if_pos hroom]⟩
    · have hd : c.decoder.takeStored left
          = (d.takeStored left).withPast c.decoder.windowBits d.history := by
        rw [h.decoder]
        exact takeStored_withPast _ _ d left
      rw [(Steps.stored (hpending.trans hp) hm' hi' hroom).turn, hd]
      left
      simp [Call.join, alone, call, emit, withPast, (d.past_takeStored left).2]
  | @bit bit hold d' hp hm hh hb =>
    have hb' : { c.decoder with hold }.acceptBit bit
        = some (d'.withPast c.decoder.windowBits d.history) := by
      have hsame := acceptBit_withPast c.decoder.windowBits d.history { d with hold } bit
      rw [show ({ d with hold } : Inflater).acceptBit bit = some d' from hb] at hsame
      rw [h.decoder]
      exact hsame
    have hd' : d'.history = d.history := (past_of_acceptBit hb).2
    rw [(Steps.bit (hpending.trans hp) (by rw [hmode]; exact hm) (hhold.trans hh) hb').turn]
    left
    simp [Call.join, alone, call, hd', hi]
  | @octet b rest hp hm hh hr =>
    have hi' : c.input = b :: (rest ++ more) := by rw [hi, show input = b :: rest from hr]; rfl
    rw [(Steps.octet (hpending.trans hp) (by rw [hmode]; exact hm) (hhold.trans hh) hi').turn]
    left
    have hd : { c.decoder with hold := bitsOf b }
        = ({ d with hold := bitsOf b } : Inflater).withPast c.decoder.windowBits d.history := by
      rw [h.decoder]
      rfl
    simp [Call.join, alone, call, hd]

end Call

/-! ### Octets in parts -/

/-- More input makes no difference to a turn that can be taken. -/
theorem exists_turn_append {d : Inflater} {input : Bytes} {e : Call}
    (he : (d.alone input).turn = .next e) (more : Bytes) :
    ∃ e', (d.alone (input ++ more)).turn = .next e'
      ∧ e'.decoder = e.decoder ∧ e'.input = e.input ++ more ∧ e'.output = e.output := by
  have hfollows : (d.alone (input ++ more)).Follows d input more :=
    ⟨rfl, rfl, by simp [alone, call]⟩
  rcases hfollows.turn he with hturn | ⟨hroom, -⟩
  · refine ⟨_, hturn, ?_, rfl, Array.empty_append⟩
    show e.decoder.withPast d.windowBits e.decoder.history = e.decoder
    rw [← (past_of_turn he).1]
    rfl
  · cases hroom

/-- Nor does less input, as long as the turn uses none of what is missing. -/
theorem exists_turn_of_suffix {d : Inflater} {input more : Bytes} {e : Call}
    (he : (d.alone (input ++ more)).turn = .next e) (hmore : more <:+ e.input) :
    ∃ e', (d.alone input).turn = .next e' ∧ e'.decoder = e.decoder
      ∧ e.input = e'.input ++ more ∧ e'.output = e.output := by
  -- Where an octet is used, it is one of the input that is left.
  have hfirst {b : UInt8} {left : Bytes} (hi : input ++ more = b :: left) (hl : more <:+ left) :
      ∃ front, input = b :: front ∧ left = front ++ more := by
    rcases List.append_eq_cons_iff.1 hi with ⟨-, hall⟩ | ⟨front, rfl, hleft⟩
    · have hlength := hl.length_le
      rw [hall, List.length_cons] at hlength
      omega
    · exact ⟨front, rfl, hleft⟩
  cases Call.steps_of_turn he with
  | literal hp hroom =>
    exact ⟨_, (Call.Steps.literal (c := d.alone input) hp hroom).turn, rfl, rfl, rfl⟩
  | copy hp hroom hnear =>
    exact ⟨_, (Call.Steps.copy (c := d.alone input) hp hroom hnear).turn, rfl, rfl, rfl⟩
  | bit hp hm hh hd =>
    exact ⟨_, (Call.Steps.bit (c := d.alone input) hp hm hh hd).turn, rfl, rfl, rfl⟩
  | stored hp hm hi hroom =>
    obtain ⟨front, hinput, hleft⟩ := hfirst hi hmore
    exact ⟨_, (Call.Steps.stored (c := d.alone input) hp hm hinput hroom).turn, rfl, hleft, rfl⟩
  | octet hp hm hh hi =>
    obtain ⟨front, hinput, hleft⟩ := hfirst hi hmore
    exact ⟨_, (Call.Steps.octet (c := d.alone input) hp hm hh hinput).turn, rfl, hleft, rfl⟩

/-- Only where nothing can be done without it, the first octet behind some input is used. -/
theorem suffix_or_starved {d : Inflater} {input more : Bytes} {e : Call}
    (he : (d.alone (input ++ more)).turn = .next e) :
    more <:+ e.input ∨ input = [] ∧ d.Starved := by
  have hfirst {b : UInt8} {left : Bytes} (hi : input ++ more = b :: left) :
      more <:+ left ∨ input = [] := by
    rcases List.append_eq_cons_iff.1 hi with ⟨hnone, -⟩ | ⟨front, -, hleft⟩
    · exact .inr hnone
    · exact .inl ⟨front, hleft.symm⟩
  cases Call.steps_of_turn he with
  | literal | copy | bit => exact .inl (List.suffix_append _ _)
  | @stored left _ _ hp hm hi =>
    refine (hfirst hi).imp_right fun hnone => ⟨hnone, hp, fun htakes => ?_⟩
    rw [show d.mode = .stored left from hm] at htakes
    cases htakes
  | octet hp hm hh hi => exact (hfirst hi).imp_right fun hnone => ⟨hnone, hp, fun _ => hh⟩

namespace Yields

variable {d d' d'' : Inflater} {input more output rest : Bytes}

theorem starved (h : d.Yields input output d') : d'.Starved := by
  induction h with
  | done h => exact h
  | turn _ _ ih => exact ih

theorem past (h : d.Yields input output d') :
    d'.windowBits = d.windowBits ∧ d'.history.toList = d.history.toList ++ output := by
  induction h with
  | done => exact ⟨rfl, (List.append_nil _).symm⟩
  | turn he _ ih =>
    obtain ⟨hbits, hhistory⟩ := past_of_turn he
    refine ⟨ih.1.trans hbits, ?_⟩
    rw [ih.2, hhistory, Array.toList_append, List.append_assoc]

/-- What is read in two parts is read as a whole. -/
theorem append (h : d.Yields input output d') (h' : d'.Yields more rest d'') :
    d.Yields (input ++ more) (output ++ rest) d'' := by
  induction h with
  | done => exact h'
  | @turn d _ input output e he _ ih =>
    obtain ⟨e', he', hd, hi, ho⟩ := exists_turn_append he more
    rw [List.append_assoc, ← ho]
    refine .turn he' ?_
    rw [hd, hi]
    exact ih h'

/-- What is read as a whole can be read in two parts. -/
theorem of_append (h : d.Yields input output d') {all : Bytes}
    (hall : d.Yields (input ++ more) all d'') :
    ∃ rest, all = output ++ rest ∧ d'.Yields more rest d'' := by
  induction h generalizing all with
  | done => exact ⟨all, rfl, hall⟩
  | @turn d _ input output e he _ ih =>
    obtain ⟨e', he', hd, hi, ho⟩ := exists_turn_append he more
    generalize hinput : input ++ more = whole at hall he'
    cases hall with
    | done hstarved =>
      rw [Starved.turn (c := alone _ []) hstarved rfl] at he'
      cases he'
    | turn hnext hrest =>
      cases hnext.symm.trans he'
      rw [hd, hi] at hrest
      obtain ⟨rest, rfl, hmore⟩ := ih hrest
      exact ⟨rest, by rw [ho, List.append_assoc], hmore⟩

/-- What is read as a whole can be cut anywhere. -/
theorem exists_prefix (h : d.Yields (input ++ more) output d'') :
    ∃ front d', d.Yields input front d' := by
  generalize hall : input ++ more = all at h
  induction h generalizing input with
  | @done d hstarved =>
    obtain ⟨rfl, -⟩ := List.append_eq_nil_iff.1 hall
    exact ⟨[], d, .done hstarved⟩
  | @turn d _ _ _ e he _ ih =>
    subst hall
    rcases suffix_or_starved he with hmore | ⟨rfl, hstarved⟩
    · obtain ⟨e', he', hd, hi, -⟩ := exists_turn_of_suffix he hmore
      obtain ⟨front, d', hfront⟩ := ih hi.symm
      rw [← hd] at hfront
      exact ⟨_, d', .turn he' hfront⟩
    · exact ⟨[], d, .done hstarved⟩

/-- Octets mean one thing only. -/
theorem unique (h : d.Yields input output d') (h' : d.Yields input rest d'') :
    rest = output ∧ d'' = d' := by
  rw [← List.append_nil input] at h'
  obtain ⟨none, rfl, hnone⟩ := h.of_append h'
  cases hnone with
  | done => exact ⟨List.append_nil _, rfl⟩
  | turn hnext =>
    rw [Starved.turn (c := d'.alone []) h.starved rfl] at hnext
    cases hnext

end Yields

/-! ### Calls -/

theorem Call.run_of_next {c e : Call} (h : c.turn = .next e) : c.run = e.run := by
  rw [run]
  split
  · next hblocked => rw [h] at hblocked; cases hblocked
  · next hcorrupt => rw [h] at hcorrupt; cases hcorrupt
  · next hnext => rw [h] at hnext; cases hnext; rfl

theorem Call.run_of_blocked {c : Call} (h : c.turn = .blocked c) : c.run = some c := by
  rw [run]
  split
  · next hblocked => rw [h] at hblocked; cases hblocked; rfl
  · next hcorrupt => rw [h] at hcorrupt; cases hcorrupt
  · next hnext => rw [h] at hnext; cases hnext

/-- A call `c` that has got as far as `e`: `written` is what it has put out meanwhile, and the
decoder `d` has yet to make `rest` of the input `left`, and will then be `d'`.  Of the input behind
it, nothing is used. -/
structure Call.Reaches (c e : Call) (written : Bytes) (d : Inflater) (left rest : Bytes)
    (d' : Inflater) (more : Bytes) : Prop where
  follows : e.Follows d left more
  yields : d.Yields left rest d'
  window : e.decoder.windowBits = c.decoder.windowBits
  suffix : e.input <:+ c.input
  output : e.output.toList = c.output.toList ++ written
  stops : e.room = 0 ∨ d = d' ∧ left = [] ∧ rest = []

/-- Behind the end of the stream a decoder does nothing, whatever comes. -/
theorem Call.turn_of_finished {c : Call} (hp : c.decoder.pending = none)
    (hm : c.decoder.mode = .finished) : c.turn = .blocked c := by
  unfold turn
  rw [hp, hm]

/-- Whoever follows comes to the same end, or stops where the room is used up.  If there is more
input behind it, that is because the stream is over. -/
theorem Call.Follows.run {c : Call} {d d' : Inflater} {input output more : Bytes}
    (h : c.Follows d input more) (hy : d.Yields input output d')
    (hmore : more = [] ∨ d'.mode = .finished) :
    ∃ e written D left rest, c.run = some e ∧ c.Reaches e written D left rest d' more
      ∧ output = written ++ rest := by
  induction hy generalizing c with
  | @done d hstarved =>
    have hblocked : c.turn = .blocked c := by
      rcases hmore with rfl | hfinished
      · refine Starved.turn ?_ h.input
        rw [h.decoder]
        exact ⟨hstarved.pending, hstarved.hold⟩
      · refine Call.turn_of_finished ?_ ?_
        · rw [h.decoder]
          exact hstarved.pending
        · rw [h.decoder]
          exact hfinished
    exact ⟨c, [], d, [], [], Call.run_of_blocked hblocked, ⟨h, .done hstarved, rfl,
      List.suffix_rfl, (List.append_nil _).symm, .inr ⟨rfl, rfl, rfl⟩⟩, rfl⟩
  | @turn d d' input output e he hrest ih =>
    rcases h.turn he with hturn | ⟨hroom, hblocked⟩
    · obtain ⟨e', written, D, left, rest, hrun, hreaches, rfl⟩ := ih (h.join he) hmore
      refine ⟨e', e.output.toList ++ written, D, left, rest, (Call.run_of_next hturn).trans hrun,
        ⟨hreaches.follows, hreaches.yields, hreaches.window, hreaches.suffix.trans ?_, ?_,
          hreaches.stops⟩, (List.append_assoc ..).symm⟩
      · obtain ⟨used, hused⟩ := suffix_of_turn he
        rw [h.input]
        exact ⟨used, by rw [← show used ++ e.input = input from hused, List.append_assoc]; rfl⟩
      · rw [hreaches.output]
        simp [Call.join]
    · -- All that is left is left for a later call.
      exact ⟨c, [], d, input, e.output.toList ++ output, Call.run_of_blocked hblocked,
        ⟨h, .turn he hrest, rfl, List.suffix_rfl, (List.append_nil _).symm, .inl hroom⟩, rfl⟩

theorem exists_advance_eq {d : Inflater} {input : Bytes} {room : Nat} {e : Call}
    (h : (d.call input room).run = some e) :
    ∃ a, Decompressor.advance d input room = some a ∧ a.state = e.decoder
      ∧ a.consumed = input.length - e.input.length ∧ a.output = e.output.toList := by
  simp only [Decompressor.advance]
  split
  · next hnone => rw [h] at hnone; cases hnone
  · next hsome =>
    rw [h] at hsome
    cases hsome
    exact ⟨_, rfl, rfl, rfl, rfl⟩

end Inflater

/-! ### Calls in a loop -/

theorem one_shiftLeft_le {m n : Nat} (h : m ≤ n) : 1 <<< m ≤ 1 <<< n := by
  rw [Nat.one_shiftLeft, Nat.one_shiftLeft]
  exact Nat.pow_le_pow_right Nat.zero_lt_two h

/-- A call that fails ends the loop. -/
theorem inflateFrom_of_none {δ : Type} [Decompressor δ] {limit capacity size : Nat} {d : δ}
    {input output : Bytes} (hsize : reserve capacity output.length (2 * input.length + 64) = size)
    (h : Decompressor.advance d input (size - output.length) = none) :
    inflateFrom limit d input output capacity = .error .corrupt := by
  subst hsize
  rw [inflateFrom]
  dsimp only
  split
  · rfl
  · next hsome => rw [h] at hsome; cases hsome

/-- What becomes of a call, whatever the decompressor. -/
theorem inflateFrom_of_advance {δ : Type} [Decompressor δ] {limit capacity size : Nat} {d : δ}
    {input output : Bytes} (hsize : reserve capacity output.length (2 * input.length + 64) = size)
    {a : Advance δ input (size - output.length)}
    (h : Decompressor.advance d input (size - output.length) = some a) :
    inflateFrom limit d input output capacity
      = if limit < output.length + a.output.length then .error (.tooLarge limit)
        else if a.consumed = input.length
            ∧ (output.length + a.output.length < size ∨ (a.consumed = 0 ∧ a.output = [])) then
          .ok (a.state, output ++ a.output)
        else if a.consumed = 0 ∧ a.output = [] then .error .noProgress
        else inflateFrom limit a.state (input.drop a.consumed) (output ++ a.output) size := by
  subst hsize
  rw [inflateFrom]
  dsimp only
  split
  · next hnone => rw [h] at hnone; cases hnone
  · next a' hsome =>
    obtain rfl : a = a' := Option.some.inj (h.symm.trans hsome)
    rfl

namespace Inflater

/-- **However a decoder is called, it makes the same of the octets.**  If there is more input behind
the end of the stream, that is taken for a stall. -/
theorem inflateFrom_of_yields {limit w capacity : Nat} {d d' : Inflater}
    {input output rest more : Bytes} (hw : d.windowBits ≤ w) (hy : d.Yields input rest d')
    (hmore : more = [] ∨ d'.mode = .finished) (hlimit : output.length + rest.length ≤ limit) :
    inflateFrom limit (d.withPast w d.history) (input ++ more) output capacity
      = if more = [] then .ok (d'.withPast w d'.history, output ++ rest)
        else .error .noProgress := by
  induction hn : input.length + rest.length using Nat.strongRecOn
    generalizing d input output rest capacity with
  | _ n ih =>
    subst hn
    generalize hsize : reserve capacity output.length (2 * (input ++ more).length + 64) = size
    have hroom : 64 ≤ size - output.length := by
      have := le_reserve capacity output.length (2 * (input ++ more).length + 64)
      omega
    have hfollows : ((d.withPast w d.history).call (input ++ more)
        (size - output.length)).Follows d input more := by
      refine ⟨rfl, rfl, ?_⟩
      have hlarger := one_shiftLeft_le hw
      simp only [call, withPast, List.size_toArray, List.length_nil]
      omega
    obtain ⟨e, written, D, left, rest', hrun, hreaches, rfl⟩ := hfollows.run hy hmore
    obtain ⟨a, hadvance, hstate, hconsumed, hout⟩ := exists_advance_eq hrun
    have hwritten : a.output = written := hout.trans hreaches.output
    rw [List.length_append] at hlimit
    rw [inflateFrom_of_advance hsize hadvance, hwritten, if_neg (by omega)]
    have hleft : e.input = left ++ more := hreaches.follows.input
    have hspace : written.length + e.room = size - output.length := by
      have hlength : e.output.size = written.length := by
        rw [← Array.length_toList, hreaches.output]
        rfl
      rw [← hlength, (Call.run_bounds hrun).2]
      exact Nat.zero_add _
    have hdrop : (input ++ more).drop a.consumed = left ++ more := by
      rw [hconsumed, ← hleft]
      exact (List.suffix_iff_eq_drop.1 hreaches.suffix).symm
    have hused : a.consumed + left.length = input.length := by
      have hle := hreaches.suffix.length_le
      simp only [hleft, call, List.length_append] at hle
      rw [hconsumed, hleft, List.length_append, List.length_append]
      omega
    have hdecoder : a.state = D.withPast w D.history := by
      rw [hstate, hreaches.follows.decoder, hreaches.window]
      rfl
    by_cases hdone : more = [] ∧ e.room ≠ 0
    · obtain ⟨rfl, hleftover⟩ := hdone
      obtain ⟨rfl, rfl, rfl⟩ := hreaches.stops.resolve_left hleftover
      have hall : a.consumed = (input ++ []).length :=
        hused.trans (congrArg List.length (List.append_nil input).symm)
      rw [if_pos ⟨hall, .inl (by omega)⟩, hdecoder, List.append_nil, if_pos rfl]
    · have hgoes : ¬(a.consumed = (input ++ more).length
          ∧ (output.length + written.length < size ∨ a.consumed = 0 ∧ written = [])) := by
        rintro ⟨hall, hspare⟩
        have hnone : more = [] := by
          rw [List.length_append] at hall
          exact List.length_eq_zero_iff.1 (by omega)
        have hfull : e.room = 0 := Decidable.not_not.1 fun hleftover => hdone ⟨hnone, hleftover⟩
        rcases hspare with hspare | ⟨-, rfl⟩
        · omega
        · rw [List.length_nil] at hspace
          omega
      rw [if_neg hgoes]
      by_cases hstalled : a.consumed = 0 ∧ written = []
      · -- Nothing is used and nothing is written, though there is room.
        have hleftover : e.room ≠ 0 := by
          rw [hstalled.2, List.length_nil] at hspace
          omega
        rw [if_pos hstalled, if_neg fun hnone => hdone ⟨hnone, hleftover⟩]
      · -- Something was used or written, so the next call has less to do.
        have hless : left.length + rest'.length < input.length + (written ++ rest').length := by
          rw [List.length_append]
          rcases Nat.eq_zero_or_pos a.consumed with hzero | hpos
          · have := List.length_pos_iff.2 fun hnone => hstalled ⟨hzero, hnone⟩
            omega
          · omega
        have hwindow : D.windowBits = d.windowBits := hreaches.yields.past.1.symm.trans hy.past.1
        rw [if_neg hstalled, hdrop, hdecoder, ← List.append_assoc]
        exact ih _ hless (by rw [hwindow]; exact hw) hreaches.yields
          (by rw [List.length_append]; omega) rfl

theorem inflate_of_yields_append {limit w : Nat} {d d' : Inflater} {input output more : Bytes}
    (hw : d.windowBits ≤ w) (hy : d.Yields input output d')
    (hmore : more = [] ∨ d'.mode = .finished) (hlimit : output.length ≤ limit) :
    inflate limit (d.withPast w d.history) (input ++ more)
      = if more = [] then .ok (d'.withPast w d'.history, output) else .error .noProgress :=
  inflateFrom_of_yields hw hy hmore (by rw [List.length_nil]; omega)

theorem inflate_of_yields {limit w : Nat} {d d' : Inflater} {input output : Bytes}
    (hw : d.windowBits ≤ w) (hy : d.Yields input output d') (hlimit : output.length ≤ limit) :
    inflate limit (d.withPast w d.history) input = .ok (d'.withPast w d'.history, output) := by
  have hall := inflate_of_yields_append hw hy (.inl rfl) hlimit
  rwa [List.append_nil, if_pos rfl] at hall

/-- The same with no other window than its own. -/
theorem inflate_append_eq {limit : Nat} {d d' : Inflater} {input output more : Bytes}
    (hy : d.Yields input output d') (hmore : more = [] ∨ d'.mode = .finished)
    (hlimit : output.length ≤ limit) :
    inflate limit d (input ++ more)
      = if more = [] then .ok (d', output) else .error .noProgress := by
  have hend : d'.withPast d.windowBits d'.history = d' := by
    rw [← hy.past.1]
    rfl
  have hall := inflate_of_yields_append (Nat.le_refl _) hy hmore hlimit
  rw [hend] at hall
  exact hall

/-! ### Between two blocks -/

/-- As long as bits of a number are missing, nothing is written. -/
theorem exists_yields_of_field {d : Inflater} {f : Field} {got value : Nat} {input : Bytes}
    (hp : d.pending = none) (hm : d.mode = .field f got value)
    (hlt : got + d.hold.length + 8 * input.length < f.width) : ∃ d', d.Yields input [] d' := by
  induction hn : 9 * input.length + d.hold.length using Nat.strongRecOn
    generalizing d got value input with
  | _ n ih =>
    subst hn
    have htakes : d.mode.takesBits := by
      rw [hm]
      rfl
    rcases hh : d.hold with - | ⟨bit, hold⟩
    · rcases input with - | ⟨b, input⟩
      · exact ⟨d, .done ⟨hp, fun _ => hh⟩⟩
      · have height : (bitsOf b).length = 8 := by simp [bitsOf]
        have hless : 9 * input.length + (bitsOf b).length
            < 9 * (b :: input).length + d.hold.length := by
          rw [height, List.length_cons]
          omega
        have hlt' : got + (bitsOf b).length + 8 * input.length < f.width := by
          rw [hh, List.length_nil, List.length_cons] at hlt
          omega
        obtain ⟨d', hd'⟩ := ih _ hless (d := { d with hold := bitsOf b }) hp hm hlt' rfl
        exact ⟨d', .of_steps (.octet hp htakes hh rfl) rfl hd'⟩
    · let sum := if bit then value + (1 <<< got) else value
      rw [hh, List.length_cons] at hlt ih
      have hbit : { d with hold }.acceptBit bit
          = some { d with hold, mode := .field f (got + 1) sum } := by
        simp only [acceptBit, hm, sum]
        rw [if_pos (by omega)]
      have hless : 9 * input.length + hold.length < 9 * input.length + (hold.length + 1) := by omega
      have hlt' : got + 1 + hold.length + 8 * input.length < f.width := by omega
      obtain ⟨d', hd'⟩ :=
        ih _ hless (d := { d with hold, mode := .field f (got + 1) sum }) hp rfl hlt' rfl
      exact ⟨d', .of_steps (.bit hp htakes hh hbit) rfl hd'⟩

/-- A decoder that expects a block at the start of an octet. -/
structure BetweenBlocks (d : Inflater) : Prop where
  mode : d.mode = .field .block 0 0
  hold : d.hold = []
  pending : d.pending = none

/-- There the marker does no harm: it is the start of a stored block, up to the middle of its
length. -/
theorem BetweenBlocks.exists_yields_flushMarker {d : Inflater} (h : d.BetweenBlocks) :
    ∃ d', d.Yields flushMarker [] d' := by
  obtain ⟨w, mode, last, literals, distances, hold, pending, history⟩ := d
  obtain ⟨hm, hh, hp⟩ := h
  dsimp only at hm hh hp
  subst hm hh hp
  let stored : Inflater :=
    { windowBits := w, mode := .field .storedLength 0 0, literals, distances, history }
  obtain ⟨d', hd'⟩ : ∃ d', stored.Yields [0x00, 0xff, 0xff] [] d' :=
    exists_yields_of_field rfl rfl (by simp [stored, Field.width])
  refine ⟨d', ?_⟩
  -- Of the first octet, three bits are the header, and the others are dropped.
  refine .of_steps (.octet rfl rfl rfl rfl) rfl ?_
  refine .of_steps (.bit rfl rfl rfl rfl) rfl ?_
  refine .of_steps (.bit rfl rfl rfl rfl) rfl ?_
  refine .of_steps (.bit rfl rfl rfl rfl) rfl ?_
  exact hd'

end Inflater

end WebSocket.Flate
