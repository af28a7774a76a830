/-
WebSocket/Proofs/Frame/Resumption.lean

A decoder can be interrupted at any octet.

When a decoder has read `front` and octets `back` arrive behind it, it goes on where it
stopped, if it waits; otherwise `back` is left like the rest.  `Decoded.extend` says this of
what a call has come to, and `decode_append` says that reading `front ++ back` at once
comes to the same.  There is one lemma for each stage, as a decoder may wait in any of
them.
-/
import WebSocket.Frame.Decoder

namespace WebSocket.Decoder

/-- What a call comes to when more octets follow. -/
def Decoded.extend (r : Decoded) (back : Bytes) : Decoded :=
  match r.result with
  | .ok none => r.decoder.decode (r.rest ++ back)
  | _ => { r with rest := r.rest ++ back }

@[simp] theorem extend_wait (d : Decoder) (stage : Stage) (rest back : Bytes) :
    (d.wait stage rest).extend back = decode { d with stage } (rest ++ back) :=
  rfl

/-! ### The stages -/

theorem extend_readPayload (d : Decoder) (header : Header) (n : Nat) (front back : Bytes) :
    d.readPayload header n (front ++ back) = (d.readPayload header n front).extend back := by
  by_cases h : n ≤ front.length
  · have hall : n ≤ front.length + back.length := Nat.le_add_right_of_le h
    simp [readPayload, h, hall, Decoded.extend, List.take_append_of_le_length,
      List.drop_append_of_le_length]
  · have hwait : d.readPayload header n front = d.wait (.payload header n) front := by
      simp [readPayload, h]
    rw [hwait, extend_wait]
    rfl

theorem extend_readMask (d : Decoder) (header : Header) (n : Nat) (front back : Bytes) :
    d.readMask header n (front ++ back) = (d.readMask header n front).extend back := by
  by_cases hm : header.masked
  · match front with
    | a :: b :: c :: e :: front =>
      have h := extend_readPayload d
        { header with mask := UInt32.ofNat (Bytes.toNat [a, b, c, e]) } n front back
      simpa [readMask, hm] using h
    | [] | [_] | [_, _] | [_, _, _] =>
      simp only [readMask, hm, Bool.not_true, Bool.false_eq_true, if_false, extend_wait]
      simp only [decode, readMask, hm, Bool.not_true, Bool.false_eq_true, if_false]
      rfl
  · have h := extend_readPayload d header n front back
    simpa [readMask, hm] using h

theorem extend_checkLength (d : Decoder) (header : Header) (n : Nat) (front back : Bytes) :
    d.checkLength header n (front ++ back) = (d.checkLength header n front).extend back := by
  unfold checkLength
  split
  · rfl
  · split
    · rfl
    · exact extend_readMask d header n front back

theorem extend_readLength (d : Decoder) (header : Header) (code : Nat) (front back : Bytes) :
    d.readLength header code (front ++ back)
      = (d.readLength header code front).extend back := by
  by_cases h : lengthWidth code ≤ front.length
  · have hall : lengthWidth code ≤ front.length + back.length := Nat.le_add_right_of_le h
    simp only [readLength, Bytes.atLeast_iff, List.length_append, h, hall, if_true,
      List.take_append_of_le_length h, List.drop_append_of_le_length h]
    exact extend_checkLength ..
  · have hwait : d.readLength header code front = d.wait (.length header code) front := by
      simp [readLength, h]
    rw [hwait, extend_wait]
    rfl

theorem extend_readLead (d : Decoder) (front back : Bytes) (hd : d.stage = .start) :
    d.readLead (front ++ back) = (d.readLead front).extend back := by
  match front with
  | first :: second :: front =>
    simp only [readLead, List.cons_append]
    rcases parseLead d.inUse first second with e | ⟨header, code⟩
    · rfl
    · exact extend_readLength ..
  | [] | [_] =>
    -- Without both octets nothing is read, and the decoder stays as it is.
    have hstart : { d with stage := .start } = d := by rw [← hd]
    simp only [readLead, extend_wait, hstart]
    simp only [decode, hd, readLead]

/-- Octets can be read at once, or one part of them after the other. -/
theorem decode_append (d : Decoder) (front back : Bytes) :
    d.decode (front ++ back) = (d.decode front).extend back := by
  rcases hd : d.stage with - | ⟨header, code⟩ | ⟨header, n⟩ | ⟨header, n⟩ | - <;>
    simp only [decode, hd]
  · exact extend_readLead d front back hd
  · exact extend_readLength ..
  · exact extend_readMask ..
  · exact extend_readPayload ..
  · rfl

theorem decode_append_of_wait {d : Decoder} {front : Bytes}
    (h : (d.decode front).result = .ok none) (back : Bytes) :
    d.decode (front ++ back) = (d.decode front).decoder.decode ((d.decode front).rest ++ back) := by
  rw [decode_append, Decoded.extend]
  simp only [h]

theorem decode_append_of_frame {d : Decoder} {front : Bytes} {f : Frame}
    (h : (d.decode front).result = .ok (some f)) (back : Bytes) :
    d.decode (front ++ back) = { d.decode front with rest := (d.decode front).rest ++ back } := by
  rw [decode_append, Decoded.extend]
  simp only [h]

theorem decode_append_of_error {d : Decoder} {front : Bytes} {e : FrameError}
    (h : (d.decode front).result = .error e) (back : Bytes) :
    d.decode (front ++ back) = { d.decode front with rest := (d.decode front).rest ++ back } := by
  rw [decode_append, Decoded.extend]
  simp only [h]

end WebSocket.Decoder
