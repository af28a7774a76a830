/-
WebSocket/Proofs/Http/Uri.lean

What a URI that was read can hold, and where its parts stand in the text.

No character of a part is below the exclamation mark, and so there are neither blanks nor line
ends (`le_of_parse`).  A text with a scheme and an authority is divided by its delimiters in
one way only (`Split`), and these are the parts that are read (`exists_split_of_parse`).
-/
import WebSocket.Http.Uri
import WebSocket.Proofs.Parts

namespace WebSocket.Http.Uri

variable {c : Char}

theorem le_of_isAuthorityChar (h : isAuthorityChar c) : 0x21 ≤ c.toNat := by
  rcases Bool.or_eq_true _ _ ▸ h with h | h
  · unfold Char.isAlphanum Char.isAlpha Char.isUpper Char.isLower Char.isDigit at h
    simp only [Bool.or_eq_true, Bool.and_eq_true, decide_eq_true_eq, ge_iff_le,
      UInt32.le_iff_toNat_le] at h
    have hc : c.toNat = c.val.toNat := rfl
    have hA : 'A'.val.toNat = 0x41 := rfl
    have ha : 'a'.val.toNat = 0x61 := rfl
    have h0 : '0'.val.toNat = 0x30 := rfl
    omega
  · have hall : ("!$&'()*+,-.;=_~".toList.all fun c => 0x21 ≤ c.toNat) := by decide +kernel
    exact of_decide_eq_true (List.all_eq_true.1 hall c (List.contains_iff_mem.1 h))

/-- The bound that the characters of a path and those of a query have. -/
theorem le_of_visible {allowed : Bool}
    (h : 0x21 ≤ c.toNat && c.toNat ≤ 0x7e && allowed || 0x7f ≤ c.toNat) : 0x21 ≤ c.toNat := by
  simp only [Bool.or_eq_true, Bool.and_eq_true, decide_eq_true_eq] at h
  omega

theorem le_of_isPathChar (h : isPathChar c) : 0x21 ≤ c.toNat :=
  le_of_visible h

theorem le_of_isQueryChar (h : isQueryChar c) : 0x21 ≤ c.toNat :=
  le_of_visible h

/-- A character that a scan of an authority goes on over. -/
theorem le_of_next {s s' : AuthorityScan} (h : s.next c = .ok s') : 0x21 ≤ c.toNat := by
  unfold AuthorityScan.next at h
  split at h
  case h_6 =>
    split at h
    · next hc => exact le_of_isAuthorityChar hc
    · cases h
  all_goals decide

theorem le_of_foldlM_next {authority : List Char} {s s' : AuthorityScan}
    (h : authority.foldlM AuthorityScan.next s = .ok s') : ∀ c ∈ authority, 0x21 ≤ c.toNat := by
  induction authority generalizing s with
  | nil => exact List.forall_mem_nil _
  | cons c authority ih =>
    rw [List.foldlM_cons] at h
    obtain ⟨s₁, hc, h⟩ := bind_eq_ok.1 h
    exact List.forall_mem_cons.2 ⟨le_of_next hc, ih h⟩

theorem le_of_splitAuthority {s authority rest : List Char}
    (h : splitAuthority s = .ok (authority, rest)) : ∀ c ∈ authority, 0x21 ≤ c.toNat := by
  unfold splitAuthority at h
  dsimp only at h
  split at h
  · cases h
  · obtain ⟨scan, hscan, h⟩ := bind_eq_ok.1 h
    obtain ⟨-, -, h⟩ := bind_eq_ok.1 h
    cases h
    exact le_of_foldlM_next hscan

theorem chars_of_splitPath {s path : List Char} {query : Option (List Char)}
    (h : splitPath s = .ok (path, query)) :
    (∀ c ∈ path, isPathChar c) ∧ ∀ q ∈ query, ∀ c ∈ q, isQueryChar c := by
  unfold splitPath at h
  dsimp only at h
  split at h
  · cases h
  next hpath =>
  simp only [Bool.not_eq_true', Bool.not_eq_false, List.all_eq_true] at hpath
  split at h
  · split at h
    · next hquery =>
      cases h
      refine ⟨hpath, ?_⟩
      rintro _ ⟨⟩
      exact List.all_eq_true.1 hquery
    · cases h
  · cases h
    exact ⟨hpath, nofun⟩

/-- The forms of a text that is read, and what is read of them. -/
inductive Parsed (s : List Char) : Uri → Prop
  | asterisk (hs : s = ['*']) : Parsed s { path := s }
  | path {path : List Char} {query : Option (List Char)} (hp : splitPath s = .ok (path, query)) :
      Parsed s { path, query }
  | authority {s' authority rest : List Char} (ha : splitAuthority s' = .ok (authority, rest)) :
      Parsed s { authority }
  | whole {scheme authority path rest rest' : List Char} {query : Option (List Char)}
      (hs : splitScheme s = .ok (some scheme, rest))
      (ha : splitAuthority rest = .ok (authority, rest'))
      (hp : splitPath rest' = .ok (path, query)) :
      Parsed s { scheme := some scheme, authority, path, query }

theorem parsed_of_parse {text : String} {u : Uri} (h : parse text = .ok u) :
    Parsed text.toList u := by
  unfold parse at h
  dsimp only at h
  split at h
  · cases h
  split at h
  · cases h
  split at h
  · next hs =>
    cases h
    exact .asterisk hs
  split at h
  · obtain ⟨⟨path, query⟩, hp, h⟩ := bind_eq_ok.1 h
    cases h
    exact .path hp
  split at h
  · -- One character is an authority, without a look for a scheme.
    obtain ⟨⟨authority, rest⟩, ha, h⟩ := bind_eq_ok.1 h
    dsimp only at h
    split at h
    · cases h
    · cases h
      exact .authority ha
  obtain ⟨⟨scheme, rest⟩, hs, h⟩ := bind_eq_ok.1 h
  obtain ⟨⟨authority, rest'⟩, ha, h⟩ := bind_eq_ok.1 h
  dsimp only at h
  rcases scheme with - | scheme
  · rw [if_pos Option.isNone_none] at h
    split at h
    · cases h
    · cases h
      exact .authority ha
  · rw [if_neg (by simp)] at h
    split at h
    · cases h
    obtain ⟨⟨path, query⟩, hp, h⟩ := bind_eq_ok.1 h
    cases h
    exact .whole hs ha hp

/-- What was read is made of the characters that are allowed. -/
theorem chars_of_parse {text : String} {u : Uri} (h : parse text = .ok u) :
    (∀ c ∈ u.authority, 0x21 ≤ c.toNat) ∧ (∀ c ∈ u.path, isPathChar c)
      ∧ ∀ q ∈ u.query, ∀ c ∈ q, isQueryChar c := by
  cases parsed_of_parse h with
  | asterisk hs => exact ⟨nofun, by simp [hs, isPathChar], nofun⟩
  | path hp => exact ⟨nofun, chars_of_splitPath hp⟩
  | authority ha => exact ⟨le_of_splitAuthority ha, nofun, nofun⟩
  | whole _ ha hp => exact ⟨le_of_splitAuthority ha, chars_of_splitPath hp⟩

/-- Neither blanks nor control characters of ASCII are in what was read. -/
theorem le_of_parse {text : String} {u : Uri} (h : parse text = .ok u) :
    (∀ c ∈ u.authority, 0x21 ≤ c.toNat) ∧ (∀ c ∈ u.path, 0x21 ≤ c.toNat)
      ∧ ∀ q ∈ u.query, ∀ c ∈ q, 0x21 ≤ c.toNat := by
  obtain ⟨hauthority, hpath, hquery⟩ := chars_of_parse h
  exact ⟨hauthority, fun c hc => le_of_isPathChar (hpath c hc),
    fun q hq c hc => le_of_isQueryChar (hquery q hq c hc)⟩

/-! ### The parts of a text -/

/-- A part with its delimiter in front of it, if there is one. -/
def behind (delim : Char) (part : Option (List Char)) : List Char :=
  part.elim [] (delim :: ·)

/-- The parts that a text with a scheme and an authority is divided into by its delimiters. -/
@[ext]
structure Split (text : List Char) where
  scheme : List Char
  authority : List Char
  path : List Char
  query : Option (List Char)
  fragment : Option (List Char)
  eq_append : text = scheme ++ ':' :: '/' :: '/'
    :: (authority ++ (path ++ (behind '?' query ++ behind '#' fragment)))
  colon_not_mem_scheme : ':' ∉ scheme
  not_endsAuthority : ∀ c ∈ authority, ¬endsAuthority c
  path_eq : path = [] ∨ path.head? = some '/'
  not_mem_path : '?' ∉ path ∧ '#' ∉ path
  not_mem_query : ∀ q ∈ query, '#' ∉ q

/-- A text is divided in one way where a part ends with the first character that it cannot
hold. -/
theorem append_inj_of_stop {p : Char → Bool} {front front' back back' : List Char}
    (hfront : ∀ c ∈ front, p c) (hfront' : ∀ c ∈ front', p c)
    (hback : ∀ c ∈ back.head?, ¬p c) (hback' : ∀ c ∈ back'.head?, ¬p c)
    (h : front ++ back = front' ++ back') : front = front' ∧ back = back' := by
  have htake {front back : List Char} (hfront : ∀ c ∈ front, p c)
      (hback : ∀ c ∈ back.head?, ¬p c) : (front ++ back).takeWhile p = front := by
    rcases back with - | ⟨c, back⟩
    · rw [List.append_nil, List.takeWhile_eq_self_iff.2 hfront]
    · exact takeWhile_append_cons hfront (hback c rfl) back
  have heq : front = front' := by
    rw [← htake hfront hback, h, htake hfront' hback']
  subst heq
  exact ⟨rfl, List.append_cancel_left h⟩

/-- A delimiter that was not there before divides in one way. -/
theorem append_delim_inj {delim : Char} {front front' back back' : List Char}
    (hfront : delim ∉ front) (hfront' : delim ∉ front')
    (h : front ++ delim :: back = front' ++ delim :: back') : front = front' ∧ back = back' := by
  have hne {front : List Char} (hfront : delim ∉ front) : ∀ c ∈ front, (c != delim) = true :=
    fun c hc => bne_iff_ne.2 fun h' => hfront (h' ▸ hc)
  obtain ⟨rfl, hback⟩ := append_inj_of_stop (hne hfront) (hne hfront') (by simp) (by simp) h
  exact ⟨rfl, (List.cons.inj hback).2⟩

theorem mem_head?_behind {delim c : Char} {part : Option (List Char)} :
    c ∈ (behind delim part).head? ↔ c = delim ∧ part.isSome := by
  cases part <;> simp [behind, eq_comm]

theorem behind_injective (delim : Char) : (behind delim).Injective := by
  rintro (- | q) (- | q') h
  · rfl
  · cases h
  · cases h
  · rw [(List.cons.inj h).2]

/-- Behind the path comes a question mark or a number sign. -/
theorem eq_of_mem_head?_query {query fragment : Option (List Char)} {c : Char}
    (h : c ∈ (behind '?' query ++ behind '#' fragment).head?) : c = '?' ∨ c = '#' := by
  rcases query with - | q
  · exact .inr (mem_head?_behind.1 h).1
  · exact .inl (Option.some.inj h).symm

/-- The query ends with the first number sign. -/
theorem behind_query_inj {query query' fragment fragment' : Option (List Char)}
    (hquery : ∀ q ∈ query, '#' ∉ q) (hquery' : ∀ q ∈ query', '#' ∉ q)
    (h : behind '?' query ++ behind '#' fragment = behind '?' query' ++ behind '#' fragment') :
    query = query' ∧ fragment = fragment' := by
  have hno (fragment : Option (List Char)) (q back : List Char) :
      behind '#' fragment ≠ '?' :: q ++ back := by
    cases fragment with
    | none => exact nofun
    | some f => exact fun h => absurd (List.cons.inj h).1 (by decide)
  have hmark {q : List Char} (h : '#' ∉ q) : ∀ c ∈ q, (c != '#') = true :=
    fun c hc => bne_iff_ne.2 fun h' => h (h' ▸ hc)
  have hstop (fragment : Option (List Char)) :
      ∀ c ∈ (behind '#' fragment).head?, ¬(c != '#') = true := by
    intro c hc
    rw [(mem_head?_behind.1 hc).1]
    decide
  rcases query with - | q <;> rcases query' with - | q'
  · exact ⟨rfl, behind_injective '#' h⟩
  · exact absurd h (hno fragment q' _)
  · exact absurd h.symm (hno fragment' q _)
  · obtain ⟨rfl, hfragment⟩ := append_inj_of_stop (hmark (hquery q rfl)) (hmark (hquery' q' rfl))
      (hstop fragment) (hstop fragment') (List.cons.inj h).2
    exact ⟨rfl, behind_injective '#' hfragment⟩

namespace Split

variable {text : List Char}

/-- What ends the authority is what comes behind it. -/
theorem endsAuthority_of_mem_head? (s : Split text) :
    ∀ c ∈ (s.path ++ (behind '?' s.query ++ behind '#' s.fragment)).head?, endsAuthority c := by
  intro c hc
  rcases s.path_eq with h | h
  · rw [h, List.nil_append] at hc
    rcases eq_of_mem_head?_query hc with rfl | rfl <;> rfl
  · obtain ⟨path, hpath⟩ := List.head?_eq_some_iff.1 h
    rw [hpath] at hc
    cases hc
    rfl

/-- The delimiters leave no choice. -/
instance : Subsingleton (Split text) where
  allEq s t := by
    have heq := s.eq_append.symm.trans t.eq_append
    obtain ⟨hscheme, heq⟩ :=
      append_delim_inj s.colon_not_mem_scheme t.colon_not_mem_scheme heq
    have heq := (List.cons.inj (List.cons.inj heq).2).2
    obtain ⟨hauthority, heq⟩ := append_inj_of_stop (p := fun c => !endsAuthority c)
      (fun c hc => by simpa using s.not_endsAuthority c hc)
      (fun c hc => by simpa using t.not_endsAuthority c hc)
      (fun c hc => by simpa using s.endsAuthority_of_mem_head? c hc)
      (fun c hc => by simpa using t.endsAuthority_of_mem_head? c hc) heq
    have hmarks {path : List Char} (h : '?' ∉ path ∧ '#' ∉ path) :
        ∀ c ∈ path, (c != '?' && c != '#') = true := by
      intro c hc
      have hq : c ≠ '?' := fun h' => h.1 (h' ▸ hc)
      have hf : c ≠ '#' := fun h' => h.2 (h' ▸ hc)
      simp [hq, hf]
    have hstop {query fragment : Option (List Char)} :
        ∀ c ∈ (behind '?' query ++ behind '#' fragment).head?, ¬(c != '?' && c != '#') = true := by
      intro c hc
      rcases eq_of_mem_head?_query hc with rfl | rfl <;> decide
    obtain ⟨hpath, heq⟩ :=
      append_inj_of_stop (hmarks s.not_mem_path) (hmarks t.not_mem_path) hstop hstop heq
    obtain ⟨hquery, hfragment⟩ := behind_query_inj s.not_mem_query t.not_mem_query heq
    exact Split.ext hscheme hauthority hpath hquery hfragment

end Split

/-! ### The parts that are read -/

/-- Only letters have another small form. -/
theorem toNat_toLower (c : Char) : c.toLower.toNat
    = if 0x41 ≤ c.toNat ∧ c.toNat ≤ 0x5a then c.toNat + 0x20 else c.toNat := by
  have hupper : (c.val ≥ 'A'.val ∧ c.val ≤ 'Z'.val) ↔ 0x41 ≤ c.toNat ∧ c.toNat ≤ 0x5a :=
    and_congr UInt32.le_iff_toNat_le UInt32.le_iff_toNat_le
  unfold Char.toLower
  split
  · next hc =>
    rw [if_pos (hupper.1 hc)]
    have hle : c.val.toNat ≤ 0x5a := (hupper.1 hc).2
    have hdiff : ('a'.val - 'A'.val).toNat = 0x20 := rfl
    show (c.val + ('a'.val - 'A'.val)).toNat = c.val.toNat + 0x20
    rw [UInt32.toNat_add]
    omega
  · next hc => rw [if_neg (hupper.not.1 hc)]

theorem eq_of_toLower_eq {c d : Char} (hd : d.toNat < 0x61) (h : c.toLower = d) : c = d := by
  have hsmall := toNat_toLower c
  rw [h] at hsmall
  split at hsmall
  · omega
  · exact Char.toNat_inj.1 hsmall.symm

theorem not_of_mem_head?_dropWhile {p : Char → Bool} {s : List Char} {c : Char}
    (h : c ∈ (s.dropWhile p).head?) : ¬p c := by
  have hhead := List.head?_dropWhile_not p s
  rw [Option.mem_def.1 h] at hhead
  exact Bool.eq_false_iff.1 hhead

theorem exists_of_dropPrefix? {front s rest : List Char} (hfront : ':' ∉ front)
    (h : dropPrefix? (front ++ [':', '/', '/']) s = some rest) :
    ∃ scheme, s = scheme ++ ':' :: '/' :: '/' :: rest ∧ ':' ∉ scheme
      ∧ scheme.map Char.toLower = front := by
  unfold dropPrefix? at h
  split at h
  · next htake =>
    obtain ⟨scheme, marks, hs, hscheme, hmarks⟩ := List.map_eq_append_iff.1 htake
    have hcolon : ':' ∉ scheme := fun hc => hfront (hscheme ▸ List.mem_map_of_mem hc)
    obtain rfl : marks = [':', '/', '/'] := by
      obtain ⟨a, marks, rfl, ha, hmarks⟩ := List.map_eq_cons_iff.1 hmarks
      obtain ⟨b, marks, rfl, hb, hmarks⟩ := List.map_eq_cons_iff.1 hmarks
      obtain ⟨c, marks, rfl, hc, hmarks⟩ := List.map_eq_cons_iff.1 hmarks
      obtain rfl := List.map_eq_nil_iff.1 hmarks
      rw [eq_of_toLower_eq (by decide) ha, eq_of_toLower_eq (by decide) hb,
        eq_of_toLower_eq (by decide) hc]
    refine ⟨scheme, ?_, hcolon, hscheme⟩
    have hdrop := List.take_append_drop (front ++ [':', '/', '/']).length s
    rw [hs, Option.some.inj h] at hdrop
    rw [← hdrop, List.append_assoc]
    rfl
  · cases h

theorem exists_of_splitScheme {s rest scheme : List Char}
    (h : splitScheme s = .ok (some scheme, rest)) :
    ∃ front, s = front ++ ':' :: '/' :: '/' :: rest ∧ ':' ∉ front
      ∧ front.map Char.toLower = scheme.map Char.toLower := by
  unfold splitScheme at h
  split at h
  · next hp =>
    cases h
    exact exists_of_dropPrefix? (by decide) hp
  split at h
  · next hp =>
    cases h
    exact exists_of_dropPrefix? (by decide) hp
  dsimp only at h
  split at h
  · next hdrop =>
    split at h
    · cases h
    split at h
    · cases h
    · cases h
      refine ⟨s.takeWhile isSchemeChar, ?_, fun hc => ?_, rfl⟩
      · rw [← hdrop, List.takeWhile_append_dropWhile]
      · exact absurd (List.mem_takeWhile_imp hc) (by decide)
  · cases h

theorem of_splitAuthority {s authority rest : List Char}
    (h : splitAuthority s = .ok (authority, rest)) :
    s = authority ++ rest ∧ (∀ c ∈ authority, ¬endsAuthority c)
      ∧ ∀ c ∈ rest.head?, endsAuthority c := by
  unfold splitAuthority at h
  dsimp only at h
  split at h
  · cases h
  · obtain ⟨scan, -, h⟩ := bind_eq_ok.1 h
    obtain ⟨-, -, h⟩ := bind_eq_ok.1 h
    cases h
    refine ⟨List.takeWhile_append_dropWhile.symm, fun c hc => ?_, fun c hc => ?_⟩
    · simpa using List.mem_takeWhile_imp hc
    · simpa using not_of_mem_head?_dropWhile hc

theorem exists_fragment {back : List Char} (h : ∀ c ∈ back.head?, c = '#') :
    ∃ fragment, back = behind '#' fragment := by
  rcases back with - | ⟨c, back⟩
  · exact ⟨none, rfl⟩
  · obtain rfl := h c rfl
    exact ⟨some back, rfl⟩

theorem exists_of_splitPath {s path : List Char} {query : Option (List Char)}
    (h : splitPath s = .ok (path, query)) :
    ∃ fragment, s = path ++ (behind '?' query ++ behind '#' fragment)
      ∧ ('?' ∉ path ∧ '#' ∉ path) ∧ ∀ q ∈ query, '#' ∉ q := by
  unfold splitPath at h
  dsimp only at h
  split at h
  · cases h
  have hpath : '?' ∉ (s.takeWhile fun c => c ≠ '?' && c ≠ '#')
      ∧ '#' ∉ (s.takeWhile fun c => c ≠ '?' && c ≠ '#') :=
    ⟨fun hc => absurd (List.mem_takeWhile_imp hc) (by decide),
      fun hc => absurd (List.mem_takeWhile_imp hc) (by decide)⟩
  have hs := List.takeWhile_append_dropWhile (p := fun c => c ≠ '?' && c ≠ '#') (l := s)
  split at h
  · next rest hdrop =>
    split at h
    · cases h
      have hback : ∀ c ∈ (rest.dropWhile (· ≠ '#')).head?, c = '#' :=
        fun c hc => by simpa using not_of_mem_head?_dropWhile hc
      obtain ⟨fragment, hfragment⟩ := exists_fragment hback
      refine ⟨fragment, ?_, hpath, ?_⟩
      · rw [← hfragment]
        show s = _ ++ '?' :: (rest.takeWhile (· ≠ '#') ++ rest.dropWhile (· ≠ '#'))
        rw [List.takeWhile_append_dropWhile, ← hdrop, hs]
      · rintro _ ⟨⟩ hc
        exact absurd (List.mem_takeWhile_imp hc) (by decide)
    · cases h
  · next hquery =>
    cases h
    have hmark : ∀ c ∈ (s.dropWhile fun c => c ≠ '?' && c ≠ '#').head?, c = '#' := by
      intro c hc
      have hstop := not_of_mem_head?_dropWhile hc
      have hne : c ≠ '?' := by
        rintro rfl
        obtain ⟨rest, hrest⟩ := List.head?_eq_some_iff.1 (Option.mem_def.1 hc)
        exact hquery rest hrest
      simpa [hne] using hstop
    obtain ⟨fragment, hfragment⟩ := exists_fragment hmark
    exact ⟨fragment, by rw [← hfragment]; exact hs.symm, hpath, nofun⟩

/-- The parts that are read are those of the text, up to the case of the scheme. -/
theorem exists_split_of_parse {text : String} {u : Uri} {scheme : List Char}
    (h : parse text = .ok u) (hscheme : u.scheme = some scheme) :
    ∃ s : Split text.toList, s.scheme.map Char.toLower = scheme.map Char.toLower
      ∧ s.authority = u.authority ∧ s.path = u.path ∧ s.query = u.query := by
  cases parsed_of_parse h with
  | asterisk | path | authority => cases hscheme
  | @whole _ authority path _ _ query hs ha hp =>
    -- Only here is there a scheme, and all parts are split off one behind the other.
    cases hscheme
    obtain ⟨front, htext, hcolon, hcase⟩ := exists_of_splitScheme hs
    obtain ⟨rfl, hauthority, hstop⟩ := of_splitAuthority ha
    obtain ⟨fragment, rfl, hpath, hquery⟩ := exists_of_splitPath hp
    have hpath_eq : path = [] ∨ path.head? = some '/' := by
      rcases path with - | ⟨c, path⟩
      · exact .inl rfl
      · have hc : endsAuthority c := hstop c rfl
        have hq : c ≠ '?' := fun h => hpath.1 (h ▸ List.mem_cons_self)
        have hf : c ≠ '#' := fun h => hpath.2 (h ▸ List.mem_cons_self)
        exact .inr (by simpa [endsAuthority, hq, hf] using hc)
    exact ⟨⟨front, authority, path, query, fragment, htext, hcolon, hauthority, hpath_eq, hpath,
      hquery⟩, hcase, rfl, rfl, rfl⟩

end WebSocket.Http.Uri
