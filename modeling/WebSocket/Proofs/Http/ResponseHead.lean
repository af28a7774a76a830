/-
WebSocket/Proofs/Http/ResponseHead.lean

Which octets the reading of a head takes.

A part of the head is read from the front of the octets, and what follows it makes no
difference (`Takes`).  There is one lemma for each part: from what the part comes to, it finds
the octets that were taken.  Put together, they say that a head is taken up to an empty line,
where a line may end in a line feed alone (`exists_of_parse`).

Empty lines in front of the status line are an exception, as further ones would be skipped as
well; but the status line follows them.
-/
import WebSocket.Http.ResponseHead
import WebSocket.Proofs.Http.Headers
import WebSocket.Proofs.Parts

namespace WebSocket.Http.ResponseHead

/-- What a line can end with. -/
def IsLineEnd (l : Bytes) : Prop :=
  l = [0x0d, 0x0a] ∨ l = [0x0a]

/-- Whatever follows these octets, they are taken, and they are read in this way. -/
def Takes {α : Type} (read : Bytes → Except HeadError (α × Bytes)) (front : Bytes) (a : α) :
    Prop :=
  ∀ back, read (front ++ back) = .ok (a, back)

/-! ### Ends of lines -/

theorem endLine_append (bad : HeadError) {l : Bytes} (hl : IsLineEnd l) (back : Bytes) :
    endLine bad (l ++ back) = .ok back := by
  rcases hl with rfl | rfl
  · rfl
  · rfl

theorem exists_of_endLine {bad : HeadError} {bs rest : Bytes} (h : endLine bad bs = .ok rest) :
    ∃ l, IsLineEnd l ∧ bs = l ++ rest := by
  unfold endLine at h
  split at h
  · cases h
  · cases h
  · cases h
    exact ⟨_, .inl rfl, rfl⟩
  · cases h
    exact ⟨_, .inr rfl, rfl⟩
  · cases h

/-- A line ends with an octet that stands neither in a value nor in padding. -/
theorem exists_cons_of_isLineEnd {l : Bytes} (hl : IsLineEnd l) :
    ∃ b bs, l = b :: bs ∧ (b = 0x0d || b = 0x0a) ∧ ¬isValueByte b ∧ ¬isPadding b := by
  rcases hl with rfl | rfl
  · exact ⟨_, _, rfl, rfl, by decide, by decide⟩
  · exact ⟨_, _, rfl, rfl, by decide, by decide⟩

/-- What was skipped consists of empty lines, and is skipped in front of all that does not
start with another one. -/
theorem exists_of_skipEmptyLines {bs rest : Bytes} (h : skipEmptyLines bs = .ok rest) :
    ∃ skipped, bs = skipped ++ rest ∧ (∃ b more, rest = b :: more ∧ b ≠ 0x0d ∧ b ≠ 0x0a)
      ∧ ∀ b back, b ≠ 0x0d → b ≠ 0x0a →
        skipEmptyLines (skipped ++ b :: back) = .ok (b :: back) := by
  induction bs using skipEmptyLines.induct with
  | case1 => cases h
  | case2 => cases h
  | case3 bs ih =>
    obtain ⟨skipped, rfl, hrest, hskip⟩ := ih h
    exact ⟨0x0d :: 0x0a :: skipped, rfl, hrest, hskip⟩
  | case4 bs hnil hfeed =>
    rw [skipEmptyLines] at h
    · cases h
    · exact hnil
    · exact hfeed
  | case5 bs ih =>
    obtain ⟨skipped, rfl, hrest, hskip⟩ := ih h
    exact ⟨0x0a :: skipped, rfl, hrest, hskip⟩
  | case6 bs hnil hone htwo hreturn hfeed =>
    rw [skipEmptyLines] at h
    · obtain rfl := Except.ok.inj h
      rcases bs with - | ⟨b, more⟩
      · exact (hnil rfl).elim
      · refine ⟨[], rfl, ⟨b, more, rfl, ?_, ?_⟩, fun b back hb hb' => ?_⟩
        · rintro rfl
          exact hreturn _ rfl
        · rintro rfl
          exact hfeed _ rfl
        · rw [List.nil_append, skipEmptyLines]
          all_goals simp_all
    · exact hnil
    · exact hone
    · exact htwo
    · exact hreturn
    · exact hfeed

/-! ### The status line -/

theorem exists_of_takeVersion {bs rest : Bytes} {v : Version}
    (h : takeVersion bs = .ok (v, rest)) :
    ∃ front, front ≠ [] ∧ bs = front ++ rest ∧ Takes takeVersion front v := by
  unfold takeVersion at h
  split at h
  · split at h <;> cases h
  · next hlength =>
    have hfront : (bs.take 8).length = 8 := by
      rw [List.length_take]
      omega
    refine ⟨bs.take 8, ?_, ?_, fun back => ?_⟩
    · exact List.ne_nil_of_length_pos (by omega)
    · split at h
      · cases h
        exact (List.take_append_drop 8 bs).symm
      · split at h
        · cases h
          exact (List.take_append_drop 8 bs).symm
        · cases h
    · have hall : ¬(bs.take 8 ++ back).length < 8 := by
        rw [List.length_append]
        omega
      have htake : (bs.take 8 ++ back).take 8 = bs.take 8 := List.take_left' hfront
      have hdrop : (bs.take 8 ++ back).drop 8 = back := List.drop_left' hfront
      rw [takeVersion, if_neg hall, htake, hdrop]
      split at h
      · next hv =>
        cases h
        rw [if_pos hv]
      · next hv =>
        rw [if_neg hv]
        split at h
        · next hv' =>
          cases h
          rw [if_pos hv']
        · cases h

theorem exists_of_takeSpace {bs rest : Bytes} (h : takeSpace bs = .ok rest) :
    bs = 0x20 :: rest := by
  unfold takeSpace at h
  split at h
  · cases h
  · split at h
    · next hb =>
      cases h
      rw [hb]
    · cases h

theorem exists_of_takeDigits {value n v : Nat} {bs rest : Bytes}
    (h : takeDigits value n bs = .ok (v, rest)) :
    ∃ front, bs = front ++ rest ∧ Takes (takeDigits value n) front v := by
  induction n generalizing value bs with
  | zero =>
    cases h
    exact ⟨[], rfl, fun back => rfl⟩
  | succ n ih =>
    rcases bs with - | ⟨b, bs⟩
    · cases h
    · rw [takeDigits] at h
      split at h
      · next hb =>
        obtain ⟨front, rfl, hfront⟩ := ih h
        refine ⟨b :: front, rfl, fun back => ?_⟩
        rw [List.cons_append, takeDigits, if_pos hb]
        exact hfront back
      · cases h

theorem exists_of_takeReason {bs rest : Bytes} {reason : String}
    (h : takeReason bs = .ok (reason, rest)) :
    ∃ front l, IsLineEnd l ∧ bs = front ++ l ++ rest ∧ Takes takeReason (front ++ l) reason := by
  unfold takeReason at h
  split at h
  · next bs =>
    obtain ⟨rest', hend, hrest⟩ := bind_eq_ok.1 h
    obtain ⟨l, hl, hbs⟩ := exists_of_endLine hend
    cases hrest
    have hphrase : ∀ a ∈ bs.takeWhile isValueByte, isValueByte a := fun a => List.mem_takeWhile_imp
    refine ⟨0x20 :: bs.takeWhile isValueByte, l, hl, ?_, fun back => ?_⟩
    · rw [List.append_assoc, ← hbs, List.cons_append, List.takeWhile_append_dropWhile]
    · obtain ⟨b, end', rfl, -, hb, -⟩ := exists_cons_of_isLineEnd hl
      rw [List.append_assoc, List.cons_append, takeReason, List.cons_append,
        takeWhile_append_cons hphrase hb, dropWhile_append_cons hphrase hb, ← List.cons_append,
        endLine_append _ hl]
      rfl
  · next hspace =>
    obtain ⟨rest', hend, hrest⟩ := bind_eq_ok.1 h
    obtain ⟨l, hl, rfl⟩ := exists_of_endLine hend
    cases hrest
    refine ⟨[], l, hl, rfl, fun back => ?_⟩
    obtain ⟨b, end', rfl, -, -, hb⟩ := exists_cons_of_isLineEnd hl
    rw [List.nil_append, takeReason, endLine_append _ hl]
    · rfl
    · intro bs hbs
      rw [List.head_eq_of_cons_eq hbs] at hb
      exact hb rfl

/-! ### Headers -/

/-- A header is its name, a colon, padding, the value, and the end of the line. -/
theorem takeHeader_append {name padding value l : Bytes} (hne : name ≠ [])
    (hname : ∀ a ∈ name, isTokenByte a) (hpadding : ∀ a ∈ padding, isPadding a)
    (hvalue : ∀ a ∈ value, isValueByte a) (hfirst : ∀ b ∈ value.head?, ¬isPadding b)
    (hl : IsLineEnd l) (back : Bytes) :
    takeHeader (name ++ 0x3a :: (padding ++ (value ++ (l ++ back))))
      = .ok ((ascii name, (value.reverse.dropWhile isPadding).reverse), back) := by
  have hcolon : ¬isTokenByte 0x3a := by decide
  have hend := endLine_append .headerValue hl back
  obtain ⟨b, more, rfl, -, hb, hb'⟩ := exists_cons_of_isLineEnd hl
  have hdrop : (padding ++ (value ++ (b :: more ++ back))).dropWhile isPadding
      = value ++ (b :: more ++ back) := by
    rcases value with - | ⟨c, value⟩
    · exact dropWhile_append_cons hpadding hb' _
    · exact dropWhile_append_cons hpadding (hfirst c rfl) _
  rw [takeHeader, takeWhile_append_cons hname hcolon, dropWhile_append_cons hname hcolon]
  simp only [hdrop, List.isEmpty_eq_false_iff.2 hne, ne_eq, not_true_eq_false, decide_false,
    Bool.or_self, Bool.false_eq_true, if_false]
  rw [List.cons_append, takeWhile_append_cons hvalue hb, dropWhile_append_cons hvalue hb,
    ← List.cons_append, hend]

theorem exists_of_takeHeader {bs rest : Bytes} {header : String × Bytes}
    (h : takeHeader bs = .ok (header, rest)) :
    ∃ front l, IsLineEnd l ∧ bs = front ++ l ++ rest ∧ Takes takeHeader (front ++ l) header := by
  have hname : ∀ a ∈ bs.takeWhile isTokenByte, isTokenByte a := fun a => List.mem_takeWhile_imp
  have hbs : bs.takeWhile isTokenByte ++ bs.dropWhile isTokenByte = bs :=
    List.takeWhile_append_dropWhile
  unfold takeHeader at h
  dsimp only at h
  split at h
  · cases h
  · next b after hafter =>
    split at h
    · cases h
    · next hgood =>
      obtain ⟨hne, rfl⟩ : bs.takeWhile isTokenByte ≠ [] ∧ b = 0x3a := by
        simpa [List.isEmpty_iff] using hgood
      obtain ⟨padded, hpadded⟩ : ∃ padded, after.dropWhile isPadding = padded := ⟨_, rfl⟩
      have hpadding : ∀ a ∈ after.takeWhile isPadding, isPadding a :=
        fun a => List.mem_takeWhile_imp
      have hvalue : ∀ a ∈ padded.takeWhile isValueByte, isValueByte a :=
        fun a => List.mem_takeWhile_imp
      have hfirst : ∀ b ∈ (padded.takeWhile isValueByte).head?, ¬isPadding b := by
        intro b hb
        rw [List.head?_takeWhile, Option.mem_filter_iff] at hb
        have hhead := List.head?_dropWhile_not isPadding after
        rw [hpadded, show padded.head? = some b from hb.1] at hhead
        simpa using hhead
      rw [hpadded] at h
      split at h
      · cases h
      · next rest' hend =>
        obtain ⟨l, hl, hrest⟩ := exists_of_endLine hend
        cases h
        refine ⟨bs.takeWhile isTokenByte
          ++ 0x3a :: (after.takeWhile isPadding ++ padded.takeWhile isValueByte), l, hl, ?_, ?_⟩
        · calc bs = bs.takeWhile isTokenByte ++ 0x3a :: after := by rw [← hafter, hbs]
            _ = bs.takeWhile isTokenByte
                  ++ 0x3a :: (after.takeWhile isPadding
                    ++ (padded.takeWhile isValueByte ++ (l ++ rest))) := by
                rw [← hrest, List.takeWhile_append_dropWhile, ← hpadded,
                  List.takeWhile_append_dropWhile]
            _ = _ := by simp
        · intro back
          rw [← takeHeader_append hne hname hpadding hvalue hfirst hl back]
          simp

theorem takeHeaders_emptyLine (room : Nat) {l : Bytes} (hl : IsLineEnd l) :
    Takes (takeHeaders room) l [] := by
  intro back
  have hend := endLine_append .newLine hl back
  obtain ⟨b, bs, rfl, hb, -⟩ := exists_cons_of_isLineEnd hl
  rw [List.cons_append] at hend ⊢
  rw [takeHeaders, if_pos hb, hend]
  rfl

theorem takeHeaders_header {room : Nat} {b : UInt8} {bs tail back : Bytes}
    {header : String × Bytes} {headers : List (String × Bytes)} (hb : ¬(b = 0x0d || b = 0x0a))
    (hheader : Takes takeHeader (b :: bs) header)
    (hheaders : takeHeaders room tail = .ok (headers, back)) :
    takeHeaders (room + 1) (b :: bs ++ tail) = .ok (header :: headers, back) := by
  have hfirst := hheader tail
  rw [List.cons_append] at hfirst ⊢
  rw [takeHeaders, if_neg hb, hfirst]
  exact bind_eq_ok.2 ⟨_, rfl, bind_eq_ok.2 ⟨_, hheaders, rfl⟩⟩

/-- Headers start with an empty line, and that is all, or with a header, and others follow. -/
theorem takeHeaders_cases {room : Nat} {bs rest : Bytes} {headers : List (String × Bytes)}
    (h : takeHeaders room bs = .ok (headers, rest)) :
    (headers = [] ∧ ∃ l, IsLineEnd l ∧ bs = l ++ rest)
      ∨ ∃ b bs' header room' headers' rest', bs = b :: bs' ∧ ¬(b = 0x0d || b = 0x0a) ∧ room = room' + 1
        ∧ takeHeader bs = .ok (header, rest') ∧ takeHeaders room' rest' = .ok (headers', rest)
        ∧ headers = header :: headers' := by
  rcases bs with - | ⟨b, bs⟩
  · rw [takeHeaders] at h
    cases h
  · by_cases hb : (b = 0x0d || b = 0x0a)
    · rw [takeHeaders, if_pos hb] at h
      obtain ⟨rest', hend, hrest⟩ := bind_eq_ok.1 h
      cases hrest
      exact .inl ⟨rfl, exists_of_endLine hend⟩
    · rw [takeHeaders, if_neg hb] at h
      obtain ⟨⟨header, rest'⟩, hheader, h⟩ := bind_eq_ok.1 h
      rcases room with - | room
      · cases h
      · obtain ⟨⟨headers', rest''⟩, hheaders, hrest⟩ := bind_eq_ok.1 h
        cases hrest
        exact .inr ⟨b, bs, header, room, headers', rest', rfl, hb, rfl, hheader, hheaders, rfl⟩

/-- The headers are over with an empty line, and each of them ends with the end of a line. -/
theorem exists_of_takeHeaders {room : Nat} {bs rest : Bytes} {headers : List (String × Bytes)}
    (h : takeHeaders room bs = .ok (headers, rest)) :
    ∃ front l, IsLineEnd l ∧ bs = front ++ l ++ rest
      ∧ Takes (takeHeaders room) (front ++ l) headers
      ∧ (front = [] ∨ ∃ body l', IsLineEnd l' ∧ front = body ++ l') := by
  induction headers generalizing room bs with
  | nil =>
    rcases takeHeaders_cases h with ⟨-, l, hl, rfl⟩ | ⟨_, _, _, _, _, _, -, -, -, -, -, hnil⟩
    · exact ⟨[], l, hl, rfl, takeHeaders_emptyLine room hl, .inl rfl⟩
    · cases hnil
  | cons header headers ih =>
    rcases takeHeaders_cases h with ⟨hnil, -⟩ | ⟨b, bs', _, room', _, rest', hbs, hb, rfl, hheader,
      hheaders, heq⟩
    · cases hnil
    · cases heq
      obtain ⟨first, l₁, hl₁, hbs₁, hfirst⟩ := exists_of_takeHeader hheader
      obtain ⟨others, l₂, hl₂, rfl, hothers, hend⟩ := ih hheaders
      -- The header starts with the first octet of all.
      obtain ⟨c, more, hc⟩ : ∃ c more, first ++ l₁ = c :: more := by
        obtain ⟨c, more, rfl, -⟩ := exists_cons_of_isLineEnd hl₁
        exact List.exists_cons_of_ne_nil (by simp)
      obtain rfl : b = c := by
        rw [hbs, hc] at hbs₁
        exact List.head_eq_of_cons_eq hbs₁
      refine ⟨first ++ l₁ ++ others, l₂, hl₂, ?_, fun back => ?_, .inr ?_⟩
      · rw [hbs₁]
        simp only [List.append_assoc]
      · rw [List.append_assoc, List.append_assoc, hc]
        rw [hc] at hfirst
        exact takeHeaders_header hb hfirst (by rw [← List.append_assoc]; exact hothers back)
      · rcases hend with rfl | ⟨body, l', hl', rfl⟩
        · exact ⟨first, l₁, hl₁, by simp⟩
        · exact ⟨first ++ l₁ ++ body, l', hl', by simp⟩

/-! ### The whole head -/

/-- What the status and the headers are checked for when they have been read. -/
theorem check_eq_ok_iff {status : Nat} {headers : List (String × Bytes)} {α : Type} {x a : α} :
    (do
      if status < 100 then throw .statusCode
      if headers.any fun h => maxNameLength < h.1.length then throw .longHeaderName
      return x : Except HeadError α) = .ok a
      ↔ 100 ≤ status ∧ (∀ h ∈ headers, h.1.length ≤ maxNameLength) ∧ x = a := by
  by_cases hcode : status < 100
  · rw [if_pos hcode]
    constructor
    · intro h
      cases h
    · rintro ⟨hle, -⟩
      omega
  · rw [if_neg hcode]
    by_cases hlong : headers.any fun h => maxNameLength < h.1.length
    · rw [if_pos hlong]
      constructor
      · intro h
        cases h
      · rintro ⟨-, hall, -⟩
        obtain ⟨h, hmem, hlt⟩ := List.any_eq_true.1 hlong
        exact absurd (of_decide_eq_true hlt) (hall h hmem).not_gt
    · rw [if_neg hlong]
      constructor
      · rintro ⟨⟩
        refine ⟨by omega, fun h hmem => ?_, rfl⟩
        by_contra hlt
        exact hlong (List.any_eq_true.2 ⟨h, hmem, decide_eq_true (by omega)⟩)
      · rintro ⟨-, -, rfl⟩
        rfl

theorem parse_eq_ok_iff {bs rest : Bytes} {head : ResponseHead} :
    parse bs = .ok (head, rest) ↔
      ∃ bs₁, skipEmptyLines bs = .ok bs₁
        ∧ ∃ version bs₂, takeVersion bs₁ = .ok (version, bs₂)
        ∧ ∃ bs₃, takeSpace bs₂ = .ok bs₃
        ∧ ∃ status bs₄, takeDigits 0 3 bs₃ = .ok (status, bs₄)
        ∧ ∃ reason bs₅, takeReason bs₄ = .ok (reason, bs₅)
        ∧ ∃ headers, takeHeaders maxHeaders bs₅ = .ok (headers, rest)
        ∧ 100 ≤ status ∧ (∀ h ∈ headers, h.1.length ≤ maxNameLength)
        ∧ head = { version, status, reason, headers := Headers.collect headers } := by
  simp only [parse, bind_eq_ok, Prod.exists]
  constructor
  · rintro ⟨bs₁, hskip, version, bs₂, hversion, bs₃, hspace, status, bs₄, hstatus, reason, bs₅,
      hreason, headers, bs₆, hheaders, h⟩
    obtain ⟨hcode, hlong, hhead⟩ := check_eq_ok_iff.1 h
    cases hhead
    exact ⟨bs₁, hskip, version, bs₂, hversion, bs₃, hspace, status, bs₄, hstatus, reason, bs₅,
      hreason, headers, hheaders, hcode, hlong, rfl⟩
  · rintro ⟨bs₁, hskip, version, bs₂, hversion, bs₃, hspace, status, bs₄, hstatus, reason, bs₅,
      hreason, headers, hheaders, hcode, hlong, rfl⟩
    exact ⟨bs₁, hskip, version, bs₂, hversion, bs₃, hspace, status, bs₄, hstatus, reason, bs₅,
      hreason, headers, rest, hheaders, check_eq_ok_iff.2 ⟨hcode, hlong, rfl⟩⟩

/-- **A head is taken up to an empty line.**  The octets that are taken end with the end of a
line and an empty line, where either line may end in a line feed alone.  They are read in the
same way whatever follows them. -/
theorem exists_of_parse {bs rest : Bytes} {head : ResponseHead} (h : parse bs = .ok (head, rest)) :
    ∃ body l l', IsLineEnd l ∧ IsLineEnd l' ∧ bs = body ++ l ++ l' ++ rest
      ∧ Takes parse (body ++ l ++ l') head := by
  obtain ⟨_, hskip, version, _, hversion, _, hspace, status, _, hstatus, reason, _, hreason,
    headers, hheaders, hcode, hlong, rfl⟩ := parse_eq_ok_iff.1 h
  obtain ⟨skipped, rfl, ⟨b, more, hb, hreturn, hfeed⟩, hskipped⟩ := exists_of_skipEmptyLines hskip
  obtain ⟨v, hne, rfl, htakeVersion⟩ := exists_of_takeVersion hversion
  obtain rfl := exists_of_takeSpace hspace
  obtain ⟨digits, rfl, htakeDigits⟩ := exists_of_takeDigits hstatus
  obtain ⟨phrase, l, hl, rfl, htakeReason⟩ := exists_of_takeReason hreason
  obtain ⟨lines, l', hl', rfl, htakeHeaders, hlines⟩ := exists_of_takeHeaders hheaders
  -- The status line starts with the version, so the same empty lines are skipped.
  obtain ⟨c, cs, rfl⟩ := List.exists_cons_of_ne_nil hne
  obtain rfl : c = b := List.head_eq_of_cons_eq hb
  have htakes : Takes parse (skipped ++ (c :: cs) ++ 0x20 :: digits ++ (phrase ++ l)
      ++ (lines ++ l')) { version, status, reason, headers := Headers.collect headers } := by
    intro back
    have hskip := hskipped c (cs ++ 0x20 :: (digits ++ (phrase ++ l ++ (lines ++ l' ++ back))))
      hreturn hfeed
    have hall : skipped ++ (c :: cs) ++ 0x20 :: digits ++ (phrase ++ l) ++ (lines ++ l') ++ back
        = skipped ++ c :: (cs ++ 0x20 :: (digits ++ (phrase ++ l ++ (lines ++ l' ++ back)))) := by
      simp only [List.append_assoc, List.cons_append]
    rw [hall]
    exact parse_eq_ok_iff.2 ⟨_, hskip, version, _, htakeVersion _, _, rfl, status, _, htakeDigits _,
      reason, _, htakeReason _, headers, htakeHeaders back, hcode, hlong, rfl⟩
  -- The line in front of the empty one is the last header, or else the status line.
  rcases hlines with rfl | ⟨body, l₁, hl₁, rfl⟩
  · refine ⟨skipped ++ (c :: cs) ++ 0x20 :: digits ++ phrase, l, l', hl, hl', ?_, ?_⟩
    · simp only [List.append_assoc, List.cons_append, List.nil_append]
    · simpa only [List.append_assoc, List.cons_append, List.nil_append] using htakes
  · refine ⟨skipped ++ (c :: cs) ++ 0x20 :: digits ++ (phrase ++ l) ++ body, l₁, l', hl₁, hl', ?_, ?_⟩
    · simp only [List.append_assoc, List.cons_append]
    · simpa only [List.append_assoc, List.cons_append] using htakes

end WebSocket.Http.ResponseHead
