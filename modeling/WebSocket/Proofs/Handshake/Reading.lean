/-
WebSocket/Proofs/Handshake/Reading.lean

How an upgrade reads the response.

The reader of the head can be interrupted at any octet, also within the four octets that
end it.  What it makes of `front ++ back` depends on what it has made of `front`: if it
wants more, then `back` is read behind it (`parse_append_of_more`); a response stays the
same, and `back` is left with the octets behind it (`parse_append_of_response`); and an
error stays the same (`parse_append_of_error`).

At the end there is one lemma for each thing that can come of a piece in `Upgrade.read`, and
the induction that goes with them.
-/
import WebSocket.Handshake.Upgrade

namespace WebSocket.Handshake

namespace HeadReader

/-! ### Looking for the end of the head -/

theorem scan_append (matched seen : Nat) (front back : Bytes) :
    scan matched seen (front ++ back)
      = match scan matched seen front with
        | (matched, none) => scan matched (seen + front.length) back
        | (matched, some n) => (matched, some n) := by
  induction front generalizing matched seen with
  | nil => rfl
  | cons b front ih =>
    simp only [List.cons_append, scan]
    split
    · rfl
    · rw [ih, List.length_cons, Nat.add_assoc, Nat.add_comm 1]

/-- Octets that were seen before only shift the place of the end. -/
theorem scan_seen (matched seen : Nat) (input : Bytes) :
    scan matched seen input
      = ((scan matched 0 input).1, (scan matched 0 input).2.map (seen + ·)) := by
  induction input generalizing matched seen with
  | nil => rfl
  | cons b input ih =>
    simp only [scan]
    split
    · simp
    · rw [ih _ (seen + 1), ih _ (0 + 1)]
      simp only [Option.map_map, Prod.mk.injEq, true_and]
      congr 1
      funext n
      simp only [Function.comp]
      omega

theorem scan_le {matched n : Nat} {input : Bytes} (h : (scan matched 0 input).2 = some n) :
    n ≤ input.length := by
  induction input generalizing matched n with
  | nil => cases h
  | cons b input ih =>
    simp only [scan] at h
    split at h
    · cases h
      simp
    · rw [scan_seen] at h
      obtain ⟨m, hm, rfl⟩ := Option.map_eq_some_iff.1 h
      have := ih hm
      simp only [List.length_cons]
      omega

theorem scan_append_of_none {matched : Nat} {front : Bytes} (h : (scan matched 0 front).2 = none)
    (back : Bytes) :
    scan matched 0 (front ++ back)
      = ((scan (scan matched 0 front).1 0 back).1,
        (scan (scan matched 0 front).1 0 back).2.map (front.length + ·)) := by
  rw [scan_append]
  rcases hf : scan matched 0 front with ⟨matched', ending⟩
  obtain rfl : ending = none := by rw [hf] at h; exact h
  dsimp only
  rw [Nat.zero_add]
  exact scan_seen ..

theorem scan_append_of_some {matched n : Nat} {front : Bytes}
    (h : (scan matched 0 front).2 = some n) (back : Bytes) :
    scan matched 0 (front ++ back) = scan matched 0 front := by
  rw [scan_append]
  rcases hf : scan matched 0 front with ⟨matched', ending⟩
  obtain rfl : ending = some n := by rw [hf] at h; exact h
  rfl

/-! ### The head in parts -/

variable {r : HeadReader} {front : Bytes}

/-- A head without an end that is short enough is kept. -/
theorem parse_of_none {input : Bytes} (h : (scan r.matched 0 input).2 = none) :
    r.parse input
      = if r.limit < r.head.size + input.length then
          ⟨{ r with matched := (scan r.matched 0 input).1 }, input, .error (.headTooLarge r.limit)⟩
        else
          ⟨{ r with head := r.head ++ input, matched := (scan r.matched 0 input).1 }, [],
            .ok none⟩ := by
  rcases hs : scan r.matched 0 input with ⟨matched, ending⟩
  obtain rfl : ending = none := by rw [hs] at h; exact h
  simp [parse, hs]

theorem parse_of_some {input : Bytes} {n : Nat} (h : (scan r.matched 0 input).2 = some n) :
    r.parse input
      = if r.limit < r.head.size + n then
          ⟨{ r with matched := (scan r.matched 0 input).1 }, input, .error (.headTooLarge r.limit)⟩
        else
          ⟨{ r with head := #[], matched := 0 }, input.drop n,
            (decode (r.head ++ input.take n).toList).map some⟩ := by
  rcases hs : scan r.matched 0 input with ⟨matched, ending⟩
  obtain rfl : ending = some n := by rw [hs] at h; exact h
  simp [parse, hs]

/-- More is wanted only if there is no end yet and the head is short enough so far. -/
theorem scan_of_more {input : Bytes} (h : (r.parse input).result = .ok none) :
    (scan r.matched 0 input).2 = none ∧ ¬r.limit < r.head.size + input.length := by
  rcases hs : (scan r.matched 0 input).2 with - | n
  · rw [parse_of_none hs] at h
    split at h
    · cases h
    · next hl => exact ⟨rfl, hl⟩
  · rw [parse_of_some hs] at h
    split at h
    · cases h
    · rcases hd : decode (r.head ++ input.take n).toList with e | response
      · simp only [hd] at h; cases h
      · simp only [hd] at h; cases h

/-- As long as more is wanted, it can be read behind what was read already. -/
theorem parse_append_of_more (h : (r.parse front).result = .ok none) (back : Bytes) :
    (r.parse (front ++ back)).result = ((r.parse front).reader.parse back).result
      ∧ ∀ x, (r.parse (front ++ back)).result = .ok x →
        (r.parse (front ++ back)).reader = ((r.parse front).reader.parse back).reader
          ∧ (r.parse (front ++ back)).rest = ((r.parse front).reader.parse back).rest := by
  obtain ⟨hs, hl⟩ := scan_of_more h
  -- The reader behind `front` has kept all of it, and scans on from where it was.
  obtain ⟨r', hr⟩ : ∃ r', (r.parse front).reader = r' := ⟨_, rfl⟩
  have hr' : r' = { r with head := r.head ++ front, matched := (scan r.matched 0 front).1 } := by
    rw [← hr, parse_of_none hs, if_neg hl]
  have hall : scan r.matched 0 (front ++ back)
      = ((scan r'.matched 0 back).1, (scan r'.matched 0 back).2.map (front.length + ·)) := by
    rw [scan_append_of_none hs, hr']
  have hsize : r'.head.size = r.head.size + front.length := by
    rw [hr', ← Array.length_toList, Array.toList_appendList, List.length_append,
      Array.length_toList]
  have hlimit : r'.limit = r.limit := by rw [hr']
  rw [hr]
  rcases hb : (scan r'.matched 0 back).2 with - | n
  · -- There is no end in `back` either, and both heads have the same length.
    have hnone : (scan r.matched 0 (front ++ back)).2 = none := by rw [hall, hb]; rfl
    rw [parse_of_none hnone, parse_of_none hb, hall, hsize, hlimit, List.length_append,
      ← Nat.add_assoc]
    split
    · exact ⟨rfl, nofun⟩
    · have hhead : r.head ++ (front ++ back) = r.head ++ front ++ back := Array.ext' (by simp)
      simp [hr', hhead]
  · -- The end is within `back`, or within both parts, where `n` counts in `back` alone.
    have hsome : (scan r.matched 0 (front ++ back)).2 = some (front.length + n) := by
      rw [hall, hb]; rfl
    rw [parse_of_some hsome, parse_of_some hb, hsize, hlimit, ← Nat.add_assoc]
    split
    · exact ⟨rfl, nofun⟩
    · have hfront : front.take (front.length + n) = front :=
        List.take_of_length_le (Nat.le_add_right ..)
      simp [hr', List.take_append, List.drop_append, hfront]

/-- A response is complete, whatever follows. -/
theorem parse_append_of_response {response : Response}
    (h : (r.parse front).result = .ok (some response)) (back : Bytes) :
    r.parse (front ++ back) = { r.parse front with rest := (r.parse front).rest ++ back } := by
  rcases hs : (scan r.matched 0 front).2 with - | n
  · rw [parse_of_none hs] at h
    split at h <;> cases h
  · have hn := scan_le hs
    have hall : (scan r.matched 0 (front ++ back)).2 = some n := by
      rw [scan_append_of_some hs, hs]
    rw [parse_of_some hs] at h ⊢
    rw [parse_of_some hall]
    split
    · next hl => rw [if_pos hl] at h; cases h
    · simp [List.take_append_of_le_length hn, List.drop_append_of_le_length hn]

/-- An error stays the same, whatever follows. -/
theorem parse_append_of_error {e : Error} (h : (r.parse front).result = .error e)
    (back : Bytes) : (r.parse (front ++ back)).result = .error e := by
  rcases hs : (scan r.matched 0 front).2 with - | n
  · -- Without an end, the head is too long already.
    rw [parse_of_none hs] at h
    split at h
    · next hl =>
      rcases hall : (scan r.matched 0 (front ++ back)).2 with - | n
      · have hl' : r.limit < r.head.size + (front ++ back).length := by
          rw [List.length_append]; omega
        rw [parse_of_none hall, if_pos hl']
        exact h
      · -- The end that `back` brings lies behind what is too long.
        have hn : front.length ≤ n := by
          rw [scan_append_of_none hs] at hall
          obtain ⟨m, -, rfl⟩ := Option.map_eq_some_iff.1 hall
          omega
        rw [parse_of_some hall, if_pos (by omega)]
        exact h
    · cases h
  · have hn := scan_le hs
    have hall : (scan r.matched 0 (front ++ back)).2 = some n := by
      rw [scan_append_of_some hs, hs]
    rw [parse_of_some hs] at h
    rw [parse_of_some hall]
    split
    · next hl => rw [if_pos hl] at h; exact h
    · next hl =>
      rw [if_neg hl] at h
      simpa [List.take_append_of_le_length hn] using h

end HeadReader

namespace Upgrade

variable {ε : Type} {reader : HeadReader} {octets : Bytes}

theorem read_of_error (hne : octets ≠ []) {e : Error}
    (h : (reader.parse octets).result = .error e) (link : Link ε) (input : List Inbound) :
    read reader link (.data octets :: input)
      = ⟨(reader.parse octets).reader, link.record .fill, input, .error e⟩ := by
  obtain ⟨b, bs, rfl⟩ := List.exists_cons_of_ne_nil hne
  simp only [read, h]

theorem read_of_response (hne : octets ≠ []) {response : Response}
    (h : (reader.parse octets).result = .ok (some response)) (link : Link ε)
    (input : List Inbound) :
    read reader link (.data octets :: input)
      = ⟨(reader.parse octets).reader, link.record .fill, input,
          .ok (some (response, (reader.parse octets).rest))⟩ := by
  obtain ⟨b, bs, rfl⟩ := List.exists_cons_of_ne_nil hne
  simp only [read, h]

theorem read_of_more (hne : octets ≠ []) (h : (reader.parse octets).result = .ok none)
    (link : Link ε) (input : List Inbound) :
    read reader link (.data octets :: input)
      = read (reader.parse octets).reader (link.record .fill) input := by
  obtain ⟨b, bs, rfl⟩ := List.exists_cons_of_ne_nil hne
  simp only [read, h]

theorem read_induction {motive : HeadReader → Link ε → List Inbound → Prop}
    (nil : ∀ reader link, motive reader link [])
    (empty : ∀ reader link input, motive reader link (.empty :: input))
    (data_nil : ∀ reader link input, motive reader link (.data [] :: input))
    (ended : ∀ reader link input, motive reader link (.ended :: input))
    (failed : ∀ reader link message input, motive reader link (.failed message :: input))
    (error : ∀ reader link octets input e, octets ≠ [] →
      (HeadReader.parse reader octets).result = .error e →
      motive reader link (.data octets :: input))
    (response : ∀ reader link octets input response, octets ≠ [] →
      (HeadReader.parse reader octets).result = .ok (some response) →
      motive reader link (.data octets :: input))
    (more : ∀ reader link octets input, octets ≠ [] →
      (HeadReader.parse reader octets).result = .ok none →
      motive (reader.parse octets).reader (link.record .fill) input →
      motive reader link (.data octets :: input))
    (reader : HeadReader) (link : Link ε) (input : List Inbound) : motive reader link input := by
  induction reader, link, input using read.induct with
  | case1 reader link => exact nil reader link
  | case2 reader link input => exact empty reader link input
  | case3 reader link input => exact data_nil reader link input
  | case4 reader link input => exact ended reader link input
  | case5 reader link message input => exact failed reader link message input
  | case6 reader link octets input hne parsed e hp => exact error reader link octets input e hne hp
  | case7 reader link octets input hne parsed r hp =>
    exact response reader link octets input r hne hp
  | case8 reader link octets input hne parsed hp ih =>
    exact more reader link octets input hne hp ih

end Upgrade

end WebSocket.Handshake
