/-
WebSocket/Proofs/Flate/BitStream.lean

A decoder in the middle of an octet.

Design.  `Yields` says what whole octets mean.  What a block is made of does not end at an octet,
so here a decoder goes from one place in the bits to another one (`Proceeds`).  The bits that it
has in front of it are those at hand and those of the octets behind them (`Faces`).

A number and a word of a code are taken from these bits in one piece (`Faces.field`,
`Faces.word`), and so is a number that a table gives in two parts (`Faces.range`).  How many of
them are at hand follows from how many there are, as each octet has eight (`Faces.hold_eq`).
-/
import Mathlib
import WebSocket.Proofs.Flate.Inflation

namespace WebSocket.Flate

/-- What is left of a code behind some bits. -/
def CodeTree.behind (t : CodeTree) (bits : List Bool) : CodeTree :=
  bits.foldl child t

@[simp] theorem CodeTree.behind_cons (t : CodeTree) (bit : Bool) (bits : List Bool) :
    t.behind (bit :: bits) = (t.child bit).behind bits :=
  rfl

/-- A word goes on only behind a node. -/
theorem CodeTree.exists_node_of_behind {t : CodeTree} {bit : Bool} {bits : List Bool}
    {symbol : Nat} (h : t.behind (bit :: bits) = .leaf symbol) :
    ∃ zero one, t = .node zero one := by
  have hdead (bits : List Bool) : behind .dead bits ≠ .leaf symbol := by
    induction bits with
    | nil => exact CodeTree.noConfusion
    | cons bit bits ih => exact ih
  cases t with
  | node zero one => exact ⟨zero, one, rfl⟩
  | dead | leaf => exact absurd h (hdead bits)

/-! ### Numbers and octets as bits -/

@[simp] theorem length_numberBits (width n : Nat) : (numberBits width n).length = width := by
  simp [numberBits]

/-- Two numbers one behind the other are one number, the second being the upper part. -/
theorem numberBits_append {a x : Nat} (hx : x < 2 ^ a) (b y : Nat) :
    numberBits a x ++ numberBits b y = numberBits (a + b) (2 ^ a * y + x) := by
  simp only [numberBits, List.range_add, List.map_append, List.map_map]
  congr 1
  · refine List.map_congr_left fun i hi => ?_
    rw [Nat.testBit_two_pow_mul_add y hx, if_pos (List.mem_range.1 hi)]
  · refine List.map_congr_left fun i _ => ?_
    show y.testBit i = (2 ^ a * y + x).testBit (a + i)
    rw [Nat.testBit_two_pow_mul_add y hx, if_neg (by omega), Nat.add_sub_cancel_left]

namespace Inflater

@[simp] theorem length_bitsOf (b : UInt8) : (bitsOf b).length = 8 := by
  simp [bitsOf]

theorem length_flatMap_bitsOf (octets : Bytes) :
    (octets.flatMap bitsOf).length = 8 * octets.length := by
  induction octets with
  | nil => rfl
  | cons b octets ih =>
    rw [List.flatMap_cons, List.length_append, length_bitsOf, ih, List.length_cons]
    omega

theorem eq_nil_of_flatMap_bitsOf {octets : Bytes} (h : octets.flatMap bitsOf = []) :
    octets = [] := by
  have hlength := length_flatMap_bitsOf octets
  rw [h, List.length_nil] at hlength
  exact List.length_eq_zero_iff.1 (by omega)

theorem bitsOf_injective {b c : UInt8} (h : bitsOf b = bitsOf c) : b = c := by
  refine UInt8.toNat_inj.1 (Nat.eq_of_testBit_eq fun i => ?_)
  by_cases hi : i < 8
  · exact List.map_inj_left.1 h i (List.mem_range.2 hi)
  · have hbig (b : UInt8) : b.toNat < 2 ^ i :=
      Nat.lt_of_lt_of_le b.toNat_lt (Nat.pow_le_pow_right Nat.zero_lt_two (Nat.not_lt.1 hi))
    rw [Nat.testBit_lt_two_pow (hbig b), Nat.testBit_lt_two_pow (hbig c)]

/-- Whoever has the bits of some octets in front of others has these octets. -/
theorem exists_eq_append_of_flatMap {octets input : Bytes} {bits : List Bool}
    (h : input.flatMap bitsOf = octets.flatMap bitsOf ++ bits) :
    ∃ rest, input = octets ++ rest ∧ rest.flatMap bitsOf = bits := by
  induction octets generalizing input with
  | nil => exact ⟨input, rfl, h⟩
  | cons b octets ih =>
    rw [List.flatMap_cons, List.append_assoc] at h
    rcases input with - | ⟨c, input⟩
    · have hlength := congrArg List.length h
      rw [List.flatMap_nil, List.length_nil, List.length_append, length_bitsOf] at hlength
      omega
    · rw [List.flatMap_cons] at h
      obtain ⟨hfirst, hrest⟩ := List.append_inj h (by simp)
      obtain ⟨rest, rfl, hbits⟩ := ih hrest
      exact ⟨rest, by rw [bitsOf_injective hfirst, List.cons_append], hbits⟩

/-! ### From one place to another -/

/-- The decoder `d`, with `input` in front of it, comes to be `d'` with `input'` in front of it,
and meanwhile it writes `output`. -/
inductive Proceeds : (d : Inflater) → (input output : Bytes) → (d' : Inflater) →
    (input' : Bytes) → Prop
  | refl {d : Inflater} {input : Bytes} : Proceeds d input [] d input
  | turn {d d' : Inflater} {input rest input' : Bytes} {c : Call}
      (h : (d.alone input).turn = .next c) (hc : Proceeds c.decoder c.input rest d' input') :
      Proceeds d input (c.output.toList ++ rest) d' input'

namespace Proceeds

variable {d d' d'' : Inflater} {input input' input'' output rest : Bytes}

/-- One turn in which nothing is written. -/
theorem of_steps {c : Call} (hs : (d.alone input).Steps c) (ho : c.output = #[]) :
    d.Proceeds input [] c.decoder c.input := by
  have hturn := Proceeds.turn hs.turn .refl
  rw [ho] at hturn
  exact hturn

theorem trans (h : d.Proceeds input output d' input') (h' : d'.Proceeds input' rest d'' input'') :
    d.Proceeds input (output ++ rest) d'' input'' := by
  induction h with
  | refl => exact h'
  | turn hturn _ ih =>
    rw [List.append_assoc]
    exact .turn hturn (ih h')

/-- Nothing is written on the way to the place from where the other one goes on. -/
theorem trans_quiet (h : d.Proceeds input [] d' input')
    (h' : d'.Proceeds input' rest d'' input'') : d.Proceeds input rest d'' input'' :=
  h.trans h'

theorem yields (h : d.Proceeds input output d' input') (h' : d'.Yields input' rest d'') :
    d.Yields input (output ++ rest) d'' := by
  induction h with
  | refl => exact h'
  | turn hturn _ ih =>
    rw [List.append_assoc]
    exact .turn hturn (ih h')

/-- What is read in front of a place and some octets behind it are read as a whole, whatever comes
behind them. -/
theorem exists_yields {back more : Bytes} (h : d.Proceeds input output d' input')
    (hinput : input' = back ++ more) (h' : d'.Yields back rest d'') :
    ∃ front, input = front ++ more ∧ d.Yields front (output ++ rest) d'' := by
  induction h with
  | refl => exact ⟨back, hinput, h'⟩
  | @turn d _ input written _ c hturn hc ih =>
    obtain ⟨left, hleft, hyields⟩ := ih hinput h'
    obtain ⟨used, hused⟩ := suffix_of_turn hturn
    obtain rfl : input = (used ++ left) ++ more := by
      rw [List.append_assoc, ← hleft]
      exact hused.symm
    obtain ⟨c', hturn', hd, hi, ho⟩ := exists_turn_of_suffix hturn ⟨left, hleft.symm⟩
    obtain rfl : left = c'.input := List.append_cancel_right (hleft.symm.trans hi)
    rw [← hd] at hyields
    refine ⟨used ++ c'.input, rfl, ?_⟩
    rw [← ho, List.append_assoc]
    exact .turn hturn' hyields

end Proceeds

/-! ### Bits in front of a decoder -/

/-- The bits in front of a decoder: those at hand, less than an octet, and those of its input. -/
structure Faces (d : Inflater) (input : Bytes) (bits : List Bool) : Prop where
  short : d.hold.length < 8
  eq : d.hold ++ input.flatMap bitsOf = bits

namespace Faces

variable {d : Inflater} {input : Bytes} {bits : List Bool}

/-- Where as many bits come behind some as octets have, these are the bits at hand. -/
theorem hold_eq {front back : List Bool} (h : d.Faces input (front ++ back))
    (hfront : front.length < 8) (hback : back.length % 8 = 0) :
    d.hold = front ∧ input.flatMap bitsOf = back := by
  refine List.append_inj h.eq ?_
  have hlength := congrArg List.length h.eq
  rw [List.length_append, List.length_append, length_flatMap_bitsOf] at hlength
  have hshort := h.short
  omega

/-- When no bits are left, neither are octets. -/
theorem eq_nil (h : d.Faces input []) : d.hold = [] ∧ input = [] := by
  obtain ⟨hhold, hinput⟩ := List.append_eq_nil_iff.1 h.eq
  exact ⟨hhold, eq_nil_of_flatMap_bitsOf hinput⟩

/-- Takes a bit, from a new octet if there is none at hand. -/
theorem bit {bit : Bool} (h : d.Faces input (bit :: bits)) (hp : d.pending = none)
    (hm : d.mode.takesBits) :
    ∃ hold input', ({ d with hold } : Inflater).Faces input' bits
      ∧ ∀ e, ({ d with hold } : Inflater).acceptBit bit = some e →
        d.Proceeds input [] e input' := by
  rcases hh : d.hold with - | ⟨first, hold⟩
  · -- No bit is at hand, so an octet is begun in a turn of its own.
    have heq := h.eq
    rw [hh, List.nil_append] at heq
    rcases input with - | ⟨b, input⟩
    · cases heq
    · have hfirst : bitsOf b = bit :: (bitsOf b).tail := by
        have hne : bitsOf b ≠ [] := by
          intro hnil
          have := congrArg List.length hnil
          simp at this
        obtain ⟨first, hold, hcons⟩ := List.exists_cons_of_ne_nil hne
        rw [List.flatMap_cons, hcons] at heq
        rw [hcons, (List.cons.inj heq).1]
        rfl
      rw [List.flatMap_cons, hfirst] at heq
      refine ⟨(bitsOf b).tail, input, ⟨by simp, (List.cons.inj heq).2⟩, fun e he => ?_⟩
      have hoctet : d.Proceeds (b :: input) [] { d with hold := bitsOf b } input :=
        .of_steps (.octet hp hm hh rfl) rfl
      have hbit : ({ d with hold := bitsOf b } : Inflater).Proceeds input [] e input :=
        .of_steps (.bit (c := ({ d with hold := bitsOf b } : Inflater).alone input) hp hm hfirst he)
          rfl
      exact hoctet.trans_quiet hbit
  · have heq := h.eq
    rw [hh, List.cons_append] at heq
    obtain ⟨rfl, hrest⟩ := List.cons.inj heq
    have hshort := h.short
    rw [hh, List.length_cons] at hshort
    exact ⟨hold, input, ⟨by dsimp only; omega, hrest⟩, fun e he =>
      .of_steps (.bit hp hm hh he) rfl⟩

/-! ### Numbers and words -/

/-- One bit more of a number, counted from the least significant one. -/
theorem mod_succ_eq (v got : Nat) :
    (if v.testBit got then v % (1 <<< got) + (1 <<< got) else v % (1 <<< got))
      = v % (1 <<< (got + 1)) := by
  rw [Nat.testBit_eq_decide_div_mod_eq, Nat.one_shiftLeft, Nat.one_shiftLeft, Nat.mod_pow_succ]
  rcases Nat.mod_two_eq_zero_or_one (v / 2 ^ got) with hbit | hbit <;> simp [hbit]

/-- Takes the rest of a number. -/
theorem fieldRest {f : Field} {v : Nat} (got : Nat)
    (h : d.Faces input ((numberBits f.width v).drop got ++ bits)) (hp : d.pending = none)
    (hm : d.mode = .field f got (v % (1 <<< got))) (hgot : got < f.width)
    (hv : v < 1 <<< f.width) :
    ∃ hold mode input', ({ d with hold, mode } : Inflater).Faces input' bits
      ∧ ∀ e, ({ d with hold, mode } : Inflater).acceptField f v = some e →
        d.Proceeds input [] e input' := by
  -- The induction is on the number of bits that are missing.
  induction hn : f.width - got generalizing d got input with
  | zero => omega
  | succ n ih =>
    have hbits : (numberBits f.width v).drop got
        = v.testBit got :: (numberBits f.width v).drop (got + 1) := by
      rw [List.drop_eq_getElem_cons (by simpa [numberBits] using hgot)]
      simp [numberBits]
    rw [hbits] at h
    obtain ⟨hold, input', hfaces, hproceeds⟩ := h.bit hp (by rw [hm]; rfl)
    have haccept : ({ d with hold } : Inflater).acceptBit (v.testBit got)
        = if got + 1 < f.width then
            some { d with hold, mode := .field f (got + 1) (v % (1 <<< (got + 1))) }
          else ({ d with hold } : Inflater).acceptField f (v % (1 <<< (got + 1))) := by
      simp only [acceptBit, hm, mod_succ_eq]
    by_cases hmore : got + 1 < f.width
    · rw [if_pos hmore] at haccept
      obtain ⟨hold', mode, input'', hfaces', hproceeds'⟩ :=
        ih (d := { d with hold, mode := .field f (got + 1) (v % (1 <<< (got + 1))) }) (got + 1)
          ⟨hfaces.short, hfaces.eq⟩ hp rfl hmore (by omega)
      exact ⟨hold', mode, input'', hfaces', fun e he =>
        (hproceeds _ haccept).trans_quiet (hproceeds' e he)⟩
    · have hlast : got + 1 = f.width := by omega
      rw [if_neg hmore, hlast, Nat.mod_eq_of_lt hv] at haccept
      have hnone : (numberBits f.width v).drop (got + 1) = [] := by
        rw [hlast]
        exact List.drop_eq_nil_of_le (by simp [numberBits])
      rw [hnone] at hfaces
      exact ⟨hold, d.mode, input', hfaces, fun e he => hproceeds e (haccept.trans he)⟩

/-- Takes a number. -/
theorem field {f : Field} {v : Nat} (h : d.Faces input (numberBits f.width v ++ bits))
    (hp : d.pending = none) (hm : d.mode = .field f 0 0) (hwidth : 0 < f.width)
    (hv : v < 1 <<< f.width) :
    ∃ hold mode input', ({ d with hold, mode } : Inflater).Faces input' bits
      ∧ ∀ e, ({ d with hold, mode } : Inflater).acceptField f v = some e →
        d.Proceeds input [] e input' :=
  h.fieldRest 0 hp (by rw [hm, Nat.shiftLeft_zero, Nat.mod_one]) hwidth hv

/-- Takes a word. -/
theorem word {alphabet : Alphabet} {rest : CodeTree} {word : List Bool} {symbol : Nat}
    (h : d.Faces input (word ++ bits)) (hp : d.pending = none)
    (hm : d.mode = .word alphabet rest) (hword : rest.behind word = .leaf symbol)
    (hne : word ≠ []) :
    ∃ hold mode input', ({ d with hold, mode } : Inflater).Faces input' bits
      ∧ ∀ e, ({ d with hold, mode } : Inflater).acceptSymbol alphabet symbol = some e →
        d.Proceeds input [] e input' := by
  induction word generalizing d rest input with
  | nil => exact absurd rfl hne
  | cons bit word ih =>
    obtain ⟨hold, input', hfaces, hproceeds⟩ := Faces.bit h hp (by rw [hm]; rfl)
    rw [CodeTree.behind_cons] at hword
    rcases word with - | ⟨next, word⟩
    · have hleaf : rest.child bit = .leaf symbol := hword
      refine ⟨hold, d.mode, input', hfaces, fun e he => hproceeds e ?_⟩
      simp only [acceptBit, hm, hleaf]
      rw [hm] at he
      exact he
    · obtain ⟨zero, one, hnode⟩ := CodeTree.exists_node_of_behind hword
      rw [hnode] at hword
      have haccept : ({ d with hold } : Inflater).acceptBit bit
          = some { d with hold, mode := .word alphabet (.node zero one) } := by
        simp only [acceptBit, hm, hnode]
      obtain ⟨hold', mode, input'', hfaces', hproceeds'⟩ :=
        ih (d := { d with hold, mode := .word alphabet (.node zero one) })
          ⟨hfaces.short, hfaces.eq⟩ hp rfl hword (List.cons_ne_nil _ _)
      exact ⟨hold', mode, input'', hfaces', fun e he =>
        (hproceeds _ haccept).trans_quiet (hproceeds' e he)⟩

/-- Takes a number that is given by a symbol, which stands for a range, and by its place in that
range.  Where the range is a single number, no bits follow. -/
theorem range {alphabet : Alphabet} {rest : CodeTree} {word : List Bool}
    {symbol least width extra : Nat} {f : Field} {next : Inflater → Nat → Inflater}
    (h : d.Faces input (word ++ (numberBits width extra ++ bits))) (hp : d.pending = none)
    (hm : d.mode = .word alphabet rest) (hword : rest.behind word = .leaf symbol)
    (hne : word ≠ [])
    (hsymbol : ∀ e : Inflater, e.acceptSymbol alphabet symbol
      = some (if width = 0 then next e least else e.expect f))
    (hf : f.width = width)
    (hfield : ∀ (e : Inflater) (v : Nat), e.acceptField f v = some (next e (least + v)))
    (hextra : extra < 1 <<< width) :
    ∃ hold mode input', ({ d with hold, mode } : Inflater).Faces input' bits
      ∧ d.Proceeds input [] (next { d with hold, mode } (least + extra)) input' := by
  obtain ⟨hold, mode, input', hfaces, hproceeds⟩ := h.word hp hm hword hne
  have htaken := hproceeds _ (hsymbol _)
  by_cases hwidth : width = 0
  · -- The range is a single number.
    have hsingle : extra = 0 := by
      rw [hwidth, Nat.shiftLeft_zero] at hextra
      omega
    rw [hwidth] at hfaces
    rw [if_pos hwidth] at htaken
    rw [hsingle]
    exact ⟨hold, mode, input', hfaces, htaken⟩
  · rw [if_neg hwidth] at htaken
    have hplace : (({ d with hold, mode } : Inflater).expect f).Faces input'
        (numberBits f.width extra ++ bits) :=
      ⟨hfaces.short, by rw [hf]; exact hfaces.eq⟩
    obtain ⟨hold', mode', input'', hfaces', hproceeds'⟩ :=
      hplace.field hp rfl (by omega) (by rw [hf]; exact hextra)
    exact ⟨hold', mode', input'', hfaces', htaken.trans_quiet (hproceeds' _ (hfield _ _))⟩

end Faces

end Inflater

end WebSocket.Flate
