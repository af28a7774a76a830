/-
WebSocket/Proofs/Http/Scheme.lean

The scheme of a text, and the case of its letters.

A scheme is in front of a colon and two slashes (`HasScheme`).  It is put in small letters if it
is `http` or `https` then, and is kept as it is written otherwise (`readAs`).  Nothing else
depends on it: where only the case of the letters in front of the first colon with two slashes is
changed, a URI is read with the same other parts (`parse_of_scheme_case`).
-/
import Mathlib.Data.String.Basic
import WebSocket.Proofs.Http.Uri

namespace WebSocket.Http.Uri

/-- What a scheme is read as. -/
def readAs (front : List Char) : List Char :=
  if front.map Char.toLower ∈ ["http".toList, "https".toList] then front.map Char.toLower
  else front

/-! ### Letters -/

theorem isUpper_iff {c : Char} : c.isUpper ↔ 0x41 ≤ c.toNat ∧ c.toNat ≤ 0x5a :=
  decide_eq_true_iff.trans (and_congr UInt32.le_iff_toNat_le UInt32.le_iff_toNat_le)

theorem isLower_iff {c : Char} : c.isLower ↔ 0x61 ≤ c.toNat ∧ c.toNat ≤ 0x7a :=
  Bool.and_eq_true_iff.trans (and_congr (decide_eq_true_iff.trans UInt32.le_iff_toNat_le)
    (decide_eq_true_iff.trans UInt32.le_iff_toNat_le))

/-- Letters may stand in a scheme. -/
theorem isSchemeChar_of_isAlpha {c : Char} (h : c.isUpper ∨ c.isLower) : isSchemeChar c :=
  Bool.or_eq_true_iff.2 (.inl (Bool.or_eq_true_iff.2 (.inl (Bool.or_eq_true_iff.2 h))))

theorem isSchemeChar_toLower_iff {c : Char} : isSchemeChar c.toLower ↔ isSchemeChar c := by
  by_cases hc : 0x41 ≤ c.toNat ∧ c.toNat ≤ 0x5a
  · -- A large letter and its small form are both letters.
    have hsmall : c.toLower.toNat = c.toNat + 0x20 := by rw [toNat_toLower, if_pos hc]
    have hlower : c.toLower.isLower := isLower_iff.2 (by omega)
    exact iff_of_true (isSchemeChar_of_isAlpha (.inr hlower))
      (isSchemeChar_of_isAlpha (.inl (isUpper_iff.2 hc)))
  · have hsame : c.toLower.toNat = c.toNat := by rw [toNat_toLower, if_neg hc]
    rw [Char.toNat_inj.1 hsame]

theorem utf8Size_toLower (c : Char) : c.toLower.utf8Size = c.utf8Size := by
  have hone {c : Char} (h : c.toNat ≤ 0x7f) : c.utf8Size = 1 :=
    Char.utf8Size_eq_one_iff.2 (UInt32.le_iff_toNat_le.2 h)
  have hsmall := toNat_toLower c
  split at hsmall
  · rw [hone (c := c) (by omega), hone (by omega)]
  · rw [Char.toNat_inj.1 hsmall]

theorem utf8Len_map_toLower (s : List Char) :
    String.utf8Len (s.map Char.toLower) = String.utf8Len s := by
  induction s with
  | nil => rfl
  | cons c s ih =>
    rw [List.map_cons, String.utf8Len_cons, String.utf8Len_cons, ih, utf8Size_toLower]

/-! ### The first colon with two slashes -/

/-- What is in front of the first colon with two slashes is the only part without a colon that is
in front of one. -/
theorem eq_of_first {front front₀ rest rest₀ : List Char}
    (hfirst : ¬[':', '/', '/'] <:+: front ++ [':', '/']) (hcolon : ':' ∉ front₀)
    (h : front ++ ':' :: '/' :: '/' :: rest = front₀ ++ ':' :: '/' :: '/' :: rest₀) :
    front = front₀ ∧ rest = rest₀ := by
  obtain ⟨mid, rfl, hmid⟩ | ⟨mid, rfl, hmid⟩ := List.append_eq_append_iff.1 h
  · -- A colon of its own would be in `front₀`.
    rcases mid with - | ⟨c, mid⟩
    · rw [List.nil_append] at hmid
      simpa using hmid
    · obtain ⟨rfl, -⟩ := List.cons.inj hmid
      exact absurd (List.mem_append_right front List.mem_cons_self) hcolon
  · rcases mid with - | ⟨c, mid⟩
    · rw [List.nil_append] at hmid
      simpa using hmid.symm
    · -- The part in front would end behind the first one.
      have hwhole : c :: mid ++ [':', '/'] <+: ':' :: '/' :: '/' :: rest₀ :=
        ⟨'/' :: rest, by rw [hmid, List.append_assoc]; rfl⟩
      have hinside : [':', '/', '/'] <+: c :: mid ++ [':', '/'] :=
        List.prefix_of_prefix_length_le ⟨rest₀, rfl⟩ hwhole (by simp)
      refine absurd ?_ hfirst
      rw [List.append_assoc]
      exact hinside.isInfix.trans (List.suffix_append front₀ _).isInfix

/-! ### Splitting off the scheme -/

theorem dropPrefix?_append (written rest : List Char) :
    dropPrefix? (written.map Char.toLower) (written ++ rest) = some rest := by
  rw [dropPrefix?, List.length_map, List.take_left, if_pos rfl, List.drop_left]

theorem dropPrefix?_eq {name front : List Char} (hname : ':' ∉ name) (hfront : ':' ∉ front)
    (rest : List Char) :
    dropPrefix? (name ++ [':', '/', '/']) (front ++ ':' :: '/' :: '/' :: rest)
      = if front.map Char.toLower = name then some rest else none := by
  split
  · next hcase =>
    have happend := dropPrefix?_append (front ++ [':', '/', '/']) rest
    rwa [List.map_append, hcase, List.append_assoc] at happend
  · next hcase =>
    refine Option.eq_none_iff_forall_ne_some.2 fun rest' hsome => ?_
    obtain ⟨front', heq, hcolon, hcase'⟩ := exists_of_dropPrefix? hname hsome
    obtain ⟨rfl, -⟩ := append_delim_inj hfront hcolon heq
    exact hcase hcase'

/-- The texts that a scheme is split off. -/
structure HasScheme (s front rest : List Char) : Prop where
  eq_append : s = front ++ ':' :: '/' :: '/' :: rest
  chars : ∀ c ∈ front, isSchemeChar c
  length_le : front.length ≤ maxSchemeLength
  lt_length : 3 < s.length

namespace HasScheme

variable {s front rest : List Char}

theorem colon_not_mem (h : HasScheme s front rest) : ':' ∉ front :=
  fun hc => absurd (h.chars _ hc) (by decide)

/-- What a scheme is read as. -/
theorem splitScheme_eq (h : HasScheme s front rest) :
    splitScheme s = .ok (some (readAs front), rest) := by
  have hhttp := dropPrefix?_eq (show ':' ∉ "http".toList by decide) h.colon_not_mem rest
  have hhttps := dropPrefix?_eq (show ':' ∉ "https".toList by decide) h.colon_not_mem rest
  have hthree := h.lt_length
  rw [h.eq_append] at hthree ⊢
  unfold splitScheme readAs
  rw [show "http://".toList = "http".toList ++ [':', '/', '/'] from rfl, hhttp,
    show "https://".toList = "https".toList ++ [':', '/', '/'] from rfl, hhttps,
    takeWhile_append_cons h.chars (by decide), dropWhile_append_cons h.chars (by decide)]
  by_cases hcase : front.map Char.toLower = "http".toList
  · rw [if_pos hcase, hcase, if_pos List.mem_cons_self]
  by_cases hcase' : front.map Char.toLower = "https".toList
  · rw [if_neg hcase, if_pos hcase', hcase', if_pos (List.mem_cons_of_mem _ List.mem_cons_self)]
  have hnot : front.map Char.toLower ∉ ["http".toList, "https".toList] :=
    fun hmem => (List.mem_pair.1 hmem).elim hcase hcase'
  rw [if_neg hcase, if_neg hcase', if_neg hnot]
  show (if (front ++ ':' :: '/' :: '/' :: rest).length ≤ 3 then _
    else if maxSchemeLength < front.length then _ else _) = _
  rw [if_neg (Nat.not_le.2 hthree), if_neg (Nat.not_lt.2 h.length_le)]

/-- A scheme that is put in small letters is one. -/
theorem of_map_toLower (h : front.map Char.toLower ∈ ["http".toList, "https".toList]) :
    HasScheme (front ++ ':' :: '/' :: '/' :: rest) front rest := by
  have hall : ["http".toList, "https".toList].all fun name =>
      name.all isSchemeChar && (name.length ≤ maxSchemeLength && 0 < name.length) := by
    decide +kernel
  have hname := List.all_eq_true.1 hall _ h
  simp only [Bool.and_eq_true, List.all_map, List.all_eq_true, decide_eq_true_eq,
    List.length_map] at hname
  refine ⟨rfl, fun c hc => isSchemeChar_toLower_iff.1 (hname.1 c hc), hname.2.1, ?_⟩
  simp only [List.length_append, List.length_cons]
  omega

theorem exists_of_dropPrefix? {name : List Char} (hname : name ∈ ["http".toList, "https".toList])
    (h : dropPrefix? (name ++ [':', '/', '/']) s = some rest) :
    ∃ front, HasScheme s front rest := by
  have hcolon : ':' ∉ name := by
    rcases List.mem_pair.1 hname with rfl | rfl <;> decide
  obtain ⟨front, rfl, -, rfl⟩ := Uri.exists_of_dropPrefix? hcolon h
  exact ⟨front, .of_map_toLower hname⟩

theorem exists_of_splitScheme {scheme : List Char} (h : splitScheme s = .ok (some scheme, rest)) :
    ∃ front, HasScheme s front rest := by
  unfold splitScheme at h
  split at h
  · next hp =>
    cases h
    exact exists_of_dropPrefix? (show "http".toList ∈ _ from List.mem_cons_self) hp
  split at h
  · next hp =>
    cases h
    exact exists_of_dropPrefix? (List.mem_cons_of_mem _ List.mem_cons_self) hp
  dsimp only at h
  split at h
  · next hdrop =>
    split at h
    · cases h
    next hthree =>
    split at h
    · cases h
    next hlength =>
    cases h
    refine ⟨s.takeWhile isSchemeChar, ?_, fun c hc => List.mem_takeWhile_imp hc,
      Nat.not_lt.1 hlength, Nat.not_le.1 hthree⟩
    rw [← hdrop, List.takeWhile_append_dropWhile]
  · cases h

/-- All that is asked of a scheme does not depend on its case. -/
theorem of_case {front' : List Char} (h : HasScheme s front rest)
    (hcase : front.map Char.toLower = front'.map Char.toLower) :
    HasScheme (front' ++ ':' :: '/' :: '/' :: rest) front' rest := by
  have hlength : front'.length = front.length := by simpa using (congrArg List.length hcase).symm
  refine ⟨rfl, fun c hc => ?_, hlength ▸ h.length_le, ?_⟩
  · obtain ⟨d, hd, hdc⟩ := List.mem_map.1 (hcase ▸ List.mem_map_of_mem hc)
    exact isSchemeChar_toLower_iff.1 (hdc ▸ isSchemeChar_toLower_iff.2 (h.chars d hd))
  · rw [List.length_append, hlength, ← List.length_append, ← h.eq_append]
    exact h.lt_length

end HasScheme

/-- When a scheme is split off, and which. -/
theorem splitScheme_eq_ok_some_iff {s rest scheme : List Char} :
    splitScheme s = .ok (some scheme, rest)
      ↔ ∃ front, HasScheme s front rest ∧ scheme = readAs front := by
  constructor
  · intro h
    obtain ⟨front, hfront⟩ := HasScheme.exists_of_splitScheme h
    rw [hfront.splitScheme_eq] at h
    cases h
    exact ⟨front, hfront, rfl⟩
  · rintro ⟨front, hfront, rfl⟩
    exact hfront.splitScheme_eq

/-! ### Texts that differ in the case of their schemes -/

/-- What is read behind a scheme. -/
theorem HasScheme.parse_eq {text : String} {front rest : List Char}
    (h : HasScheme text.toList front rest) :
    parse text = if maxLength < text.utf8ByteSize then .error .tooLong
      else do
        let (authority, rest) ← splitAuthority rest
        if authority.isEmpty then throw .invalidFormat
        let (path, query) ← splitPath rest
        return { scheme := some (readAs front), authority, path, query } := by
  have hthree := h.lt_length
  have hslash : text.toList.head? ≠ some '/' := by
    rw [h.eq_append]
    rcases front with - | ⟨c, front⟩
    · simp
    · rintro ⟨⟩
      exact absurd (h.chars '/' List.mem_cons_self) (by decide)
  have hempty : ¬text.toList.isEmpty := by
    rw [List.isEmpty_iff_length_eq_zero]
    omega
  have hasterisk : text.toList ≠ ['*'] := by
    intro hs
    simp [hs] at hthree
  have hone : text.toList.length ≠ 1 := by omega
  unfold parse
  dsimp only
  rw [if_neg hempty, if_neg hasterisk, if_neg hslash, if_neg hone, h.splitScheme_eq]
  rfl

/-- What is read behind the scheme does not depend on it. -/
theorem parse_eq_map {text text' : String} {front front' rest : List Char}
    (h : HasScheme text.toList front rest) (h' : HasScheme text'.toList front' rest)
    (hsize : text'.utf8ByteSize = text.utf8ByteSize) :
    parse text' = (parse text).map fun u => { u with scheme := some (readAs front') } := by
  rw [h.parse_eq, h'.parse_eq, hsize]
  split
  · rfl
  rcases splitAuthority rest with e | ⟨authority, rest'⟩
  · rfl
  show (if authority.isEmpty then _ else _)
    = (if authority.isEmpty then _ else _ : Except _ _).map _
  by_cases hempty : authority.isEmpty
  · rw [if_pos hempty, if_pos hempty]
    rfl
  · rw [if_neg hempty, if_neg hempty]
    rcases splitPath rest' with e | ⟨path, query⟩ <;> rfl

/-- **The case of a scheme.**  Only the letters in front of the first colon with two slashes are
changed: what was a URI with a scheme is one with the same parts but the scheme, and either
scheme is what is read of the letters as they are written. -/
theorem parse_of_scheme_case {front front' rest : List Char}
    (hcase : front.map Char.toLower = front'.map Char.toLower)
    (hfirst : ¬[':', '/', '/'] <:+: front ++ [':', '/']) {u : Uri} {scheme : List Char}
    (h : parse (String.ofList (front ++ ':' :: '/' :: '/' :: rest)) = .ok u)
    (hscheme : u.scheme = some scheme) :
    scheme = readAs front
      ∧ parse (String.ofList (front' ++ ':' :: '/' :: '/' :: rest))
        = .ok { u with scheme := some (readAs front') } := by
  cases parsed_of_parse h with
  | asterisk | path | authority => cases hscheme
  | whole hs _ _ =>
    cases hscheme
    rw [String.toList_ofList] at hs
    obtain ⟨front₀, hfront, hread⟩ := splitScheme_eq_ok_some_iff.1 hs
    obtain ⟨rfl, rfl⟩ := eq_of_first hfirst hfront.colon_not_mem hfront.eq_append
    refine ⟨hread, ?_⟩
    have hfront' := hfront.of_case hcase
    have hsize : (String.ofList (front' ++ ':' :: '/' :: '/' :: rest)).utf8ByteSize
        = (String.ofList (front ++ ':' :: '/' :: '/' :: rest)).utf8ByteSize := by
      simp only [String.utf8ByteSize_ofList, String.utf8Len_append]
      rw [← utf8Len_map_toLower front', ← hcase, utf8Len_map_toLower]
    rw [← String.toList_ofList (l := front ++ ':' :: '/' :: '/' :: rest)] at hfront
    rw [← String.toList_ofList (l := front' ++ ':' :: '/' :: '/' :: rest)] at hfront'
    rw [parse_eq_map hfront hfront' hsize, h]
    rfl

end WebSocket.Http.Uri
