/-
WebSocket/Proofs/Http/Authority.lean

The parts of an authority: user information, host and port.

The user information goes up to the last at-sign, and the port begins with the last colon, unless
that is in brackets.  This leaves no choice (`Authority`, a subsingleton).  A scan forgets the
colons in front of an at-sign or a closing bracket and admits one colon behind them, so an authority
that was read has these parts (`exists_authority`).
-/
import Mathlib.Data.List.Induction
import WebSocket.Proofs.Http.Uri

namespace WebSocket.Http.Uri

/-! ### The division of an authority -/

/-- A part with its delimiter behind it, if there is one. -/
def upTo (delim : Char) (part : Option (List Char)) : List Char :=
  part.elim [] (· ++ [delim])

theorem upTo_injective (delim : Char) : (upTo delim).Injective := by
  rintro (- | front) (- | front') h
  · rfl
  · simp [upTo] at h
  · simp [upTo] at h
  · exact congrArg some (List.append_cancel_right h)

theorem upTo_eq_nil_iff {delim : Char} {part : Option (List Char)} :
    upTo delim part = [] ↔ part = none := by
  cases part <;> simp [upTo]

theorem delim_mem_upTo_iff {delim : Char} {part : Option (List Char)} :
    delim ∈ upTo delim part ↔ part.isSome := by
  cases part <;> simp [upTo]

theorem mem_getLast?_upTo {delim c : Char} {part : Option (List Char)}
    (h : c ∈ (upTo delim part).getLast?) : c = delim := by
  rcases part with - | front
  · cases h
  · simpa [upTo, eq_comm] using h

/-- A delimiter that does not come again divides in one way. -/
theorem upTo_append_inj {delim : Char} {part part' : Option (List Char)} {back back' : List Char}
    (hback : delim ∉ back) (hback' : delim ∉ back')
    (h : upTo delim part ++ back = upTo delim part' ++ back') : part = part' ∧ back = back' := by
  -- From the end, the part behind the delimiter stops at the first one.
  have hrev := congrArg List.reverse h
  rw [List.reverse_append, List.reverse_append] at hrev
  have hne {back : List Char} (hback : delim ∉ back) : ∀ c ∈ back.reverse, (c != delim) = true :=
    fun c hc => bne_iff_ne.2 fun h' => hback (h' ▸ List.mem_reverse.1 hc)
  have hstop (part : Option (List Char)) :
      ∀ c ∈ (upTo delim part).reverse.head?, ¬(c != delim) = true := by
    intro c hc
    rw [List.head?_reverse] at hc
    simp [mem_getLast?_upTo hc]
  obtain ⟨hbacks, hfronts⟩ :=
    append_inj_of_stop (hne hback) (hne hback') (hstop part) (hstop part') hrev
  exact ⟨upTo_injective delim (List.reverse_inj.1 hfronts), List.reverse_inj.1 hbacks⟩

/-- The parts that an authority is divided into by its delimiters. -/
@[ext]
structure Authority (text : List Char) where
  /-- The user information. -/
  user : Option (List Char)
  host : List Char
  port : Option (List Char)
  eq_append : text = upTo '@' user ++ (host ++ behind ':' port)
  at_not_mem : '@' ∉ host ++ behind ':' port
  /-- A colon in the host is in front of a bracket. -/
  colon_host : ∀ a b, host = a ++ ':' :: b → ']' ∈ b
  not_mem_port : ∀ p ∈ port, ':' ∉ p ∧ ']' ∉ p

namespace Authority

variable {text : List Char}

/-- The delimiters leave no choice. -/
instance : Subsingleton (Authority text) where
  allEq a b := by
    obtain ⟨huser, hrest⟩ :=
      upTo_append_inj a.at_not_mem b.at_not_mem (a.eq_append.symm.trans b.eq_append)
    -- A port cannot be in a host, as no bracket would be behind its colon.
    have hno {a b : Authority text} {p : List Char} (hb : b.port = some p)
        (h : a.host = b.host ++ ':' :: p) : False :=
      (b.not_mem_port p hb).2 (a.colon_host _ _ h)
    have hparts : a.host = b.host ∧ a.port = b.port := by
      rcases ha : a.port with - | p <;> rcases hb : b.port with - | q <;>
        simp only [ha, hb, behind, Option.elim, List.append_nil] at hrest
      · exact ⟨hrest, rfl⟩
      · exact (hno hb hrest).elim
      · exact (hno ha hrest.symm).elim
      · have hports : upTo ':' (some a.host) ++ p = upTo ':' (some b.host) ++ q := by
          simpa [upTo] using hrest
        obtain ⟨hhost, hport⟩ :=
          upTo_append_inj (a.not_mem_port p ha).1 (b.not_mem_port q hb).1 hports
        exact ⟨Option.some.inj hhost, congrArg some hport⟩
    exact Authority.ext huser hparts.1 hparts.2

/-- The host and the port are what is behind the last at-sign. -/
theorem hostPort_eq (a : Authority text) :
    (text.reverse.takeWhile (· ≠ '@')).reverse = a.host ++ behind ':' a.port := by
  have hne : ∀ c ∈ (a.host ++ behind ':' a.port).reverse, decide (c ≠ '@') = true :=
    fun c hc => decide_eq_true fun h => a.at_not_mem (h ▸ List.mem_reverse.1 hc)
  have htext : text.reverse
      = (a.host ++ behind ':' a.port).reverse ++ (upTo '@' a.user).reverse := by
    rw [← List.reverse_append, ← a.eq_append]
  rw [List.reverse_eq_iff, htext]
  rcases a.user with - | u
  · rw [upTo, Option.elim_none, List.reverse_nil, List.append_nil]
    exact List.takeWhile_eq_self_iff.2 hne
  · rw [upTo, Option.elim_some, List.reverse_concat]
    exact takeWhile_append_cons hne (by decide) _

/-- Where a host is named, there is one. -/
theorem host_ne_nil (a : Authority text) (h : hostOf text ≠ []) : a.host ≠ [] := by
  intro hhost
  unfold hostOf at h
  dsimp only at h
  rw [a.hostPort_eq, hhost, List.nil_append] at h
  rcases hport : a.port with - | p <;> simp [hport, behind] at h

end Authority

/-! ### Authorities that are read -/

/-- An at-sign or a closing bracket makes the scan forget the colons. -/
theorem colons_eq_zero_of_next {s s' : AuthorityScan} {c : Char} (h : s.next c = .ok s')
    (hc : c = '@' ∨ c = ']') : s'.colons = 0 := by
  rcases hc with rfl | rfl
  · cases h
    rfl
  · unfold AuthorityScan.next at h
    simp only at h
    split at h
    · cases h
    · cases h
      rfl

theorem colons_of_next {s s' : AuthorityScan} {c : Char} (h : s.next c = .ok s')
    (hc : c ≠ '@' ∧ c ≠ ']') : s'.colons = s.colons + if c = ':' then 1 else 0 := by
  unfold AuthorityScan.next at h
  split at h
  · split at h
    · cases h
    · cases h
      rfl
  · split at h
    · cases h
    · cases h
      rfl
  · exact absurd rfl hc.2
  · exact absurd rfl hc.1
  · cases h
    rfl
  · next hcolon _ _ _ _ =>
    rw [if_neg hcolon]
    split at h
    · cases h
      rfl
    · cases h

theorem colons_of_foldlM {part : List Char} {s s' : AuthorityScan}
    (h : part.foldlM AuthorityScan.next s = .ok s') (hpart : ∀ c ∈ part, c ≠ '@' ∧ c ≠ ']') :
    s'.colons = s.colons + part.count ':' := by
  induction part generalizing s with
  | nil =>
    cases h
    rfl
  | cons c part ih =>
    rw [List.foldlM_cons] at h
    obtain ⟨s₁, hc, h⟩ := bind_eq_ok.1 h
    obtain ⟨hne, hpart⟩ := List.forall_mem_cons.1 hpart
    rw [ih h hpart, colons_of_next hc hne, List.count_cons]
    simp only [beq_iff_eq]
    omega

/-- The part behind the last character of a kind. -/
theorem exists_last (p : Char → Prop) (s : List Char) :
    ∃ front back, s = front ++ back ∧ (∀ c ∈ back, ¬p c)
      ∧ (front = [] ∨ ∃ init last, front = init ++ [last] ∧ p last) := by
  induction s using List.reverseRecOn with
  | nil => exact ⟨[], [], rfl, List.forall_mem_nil _, .inl rfl⟩
  | append_singleton s c ih =>
    by_cases hc : p c
    · exact ⟨s ++ [c], [], (List.append_nil _).symm, List.forall_mem_nil _, .inr ⟨s, c, rfl, hc⟩⟩
    · obtain ⟨front, back, rfl, hback, hfront⟩ := ih
      refine ⟨front, back ++ [c], List.append_assoc .., ?_, hfront⟩
      exact List.forall_mem_append.2 ⟨hback, List.forall_mem_singleton.2 hc⟩

/-- One colon at most is behind the last at-sign and the last bracket. -/
theorem count_le_one_of_splitAuthority {s front part rest : List Char}
    (h : splitAuthority s = .ok (front ++ part, rest))
    (hfront : front = [] ∨ ∃ init last, front = init ++ [last] ∧ (last = '@' ∨ last = ']'))
    (hpart : ∀ c ∈ part, c ≠ '@' ∧ c ≠ ']') : part.count ':' ≤ 1 := by
  unfold splitAuthority at h
  dsimp only at h
  split at h
  · cases h
  obtain ⟨scan, hscan, h⟩ := bind_eq_ok.1 h
  obtain ⟨_, hfinish, h⟩ := bind_eq_ok.1 h
  rw [show (s.takeWhile fun c => !endsAuthority c) = front ++ part from
    congrArg Prod.fst (Except.ok.inj h), List.foldlM_append] at hscan
  obtain ⟨s₁, hscan₁, hscan⟩ := bind_eq_ok.1 hscan
  -- Whatever is in front, the scan counts from zero behind it.
  have hzero : s₁.colons = 0 := by
    rcases hfront with rfl | ⟨init, last, rfl, hlast⟩
    · cases hscan₁
      rfl
    · rw [List.foldlM_append] at hscan₁
      obtain ⟨s₀, -, hscan₁⟩ := bind_eq_ok.1 hscan₁
      rw [List.foldlM_cons] at hscan₁
      obtain ⟨s₂, hnext, hscan₁⟩ := bind_eq_ok.1 hscan₁
      cases hscan₁
      exact colons_eq_zero_of_next hnext hlast
  have hcolons := colons_of_foldlM hscan hpart
  -- The end of the scan admits one colon.
  unfold AuthorityScan.finish at hfinish
  split at hfinish
  · cases hfinish
  · next hok =>
    simp only [Bool.or_eq_true, decide_eq_true_eq, not_or] at hok
    omega

/-- A character in front of one that comes before some last one is in front of that as well. -/
theorem last_mem_of_append {c last : Char} {init more a b : List Char} (hc : c ≠ last)
    (hmore : c ∉ more) (h : init ++ [last] ++ more = a ++ c :: b) : last ∈ b := by
  obtain ⟨mid, -, rfl⟩ | ⟨mid, hinit, hb⟩ := List.append_eq_append_iff.1 h
  · exact absurd (List.mem_append_right mid List.mem_cons_self) hmore
  · rcases mid with - | ⟨d, mid⟩
    · rw [List.nil_append] at hb
      exact absurd (hb ▸ List.mem_cons_self) hmore
    · obtain ⟨rfl, rfl⟩ := List.cons.inj hb
      have hlast : (c :: mid).getLast? = some last := by
        simpa using (congrArg List.getLast? hinit).symm
      rcases List.mem_cons.1 (List.mem_of_getLast? hlast) with rfl | hmem
      · exact absurd rfl hc
      · exact List.mem_append_left _ hmem

/-- What is behind the last at-sign falls into host and port if there is one colon at most behind
the last bracket. -/
theorem exists_hostPort {front part : List Char}
    (hfront : front = [] ∨ ∃ init, front = init ++ [']']) (hpart : ']' ∉ part)
    (hcolons : part.count ':' ≤ 1) :
    ∃ host port, front ++ part = host ++ behind ':' port
      ∧ (∀ a b, host = a ++ ':' :: b → ']' ∈ b) ∧ ∀ p ∈ port, ':' ∉ p ∧ ']' ∉ p := by
  have hbracket {more : List Char} (hmore : ':' ∉ more) (a b : List Char)
      (h : front ++ more = a ++ ':' :: b) : ']' ∈ b := by
    rcases hfront with rfl | ⟨init, rfl⟩
    · rw [List.nil_append] at h
      exact absurd (h ▸ List.mem_append_right a List.mem_cons_self) hmore
    · exact last_mem_of_append (by decide) hmore h
  by_cases hcolon : ':' ∈ part
  · -- The only colon behind the bracket is that of the port.
    obtain ⟨more, port, rfl⟩ := List.append_of_mem hcolon
    rw [List.count_append, List.count_cons_self] at hcolons
    have hmore : ':' ∉ more := List.count_eq_zero.1 (by omega)
    have hport : ':' ∉ port := List.count_eq_zero.1 (by omega)
    refine ⟨front ++ more, some port, (List.append_assoc ..).symm, hbracket hmore, ?_⟩
    rintro _ ⟨⟩
    exact ⟨hport, fun h => hpart (List.mem_append_right _ (List.mem_cons_of_mem _ h))⟩
  · exact ⟨front ++ part, none, (List.append_nil _).symm, hbracket hcolon, nofun⟩

/-- An authority that was read has its parts. -/
theorem exists_authority {s authority rest : List Char}
    (h : splitAuthority s = .ok (authority, rest)) : Nonempty (Authority authority) := by
  obtain ⟨front, hostPort, rfl, hat, hfront⟩ := exists_last (· = '@') authority
  obtain ⟨front', part, rfl, hpart, hfront'⟩ := exists_last (· = ']') hostPort
  have hcolons : part.count ':' ≤ 1 := by
    rw [← List.append_assoc] at h
    refine count_le_one_of_splitAuthority h ?_ fun c hc =>
      ⟨hat c (List.mem_append_right _ hc), hpart c hc⟩
    rcases hfront' with rfl | ⟨init, last, rfl, hlast⟩
    · rw [List.append_nil]
      exact hfront.imp_right fun ⟨init, last, hinit, hlast⟩ => ⟨init, last, hinit, .inl hlast⟩
    · exact .inr ⟨front ++ init, last, (List.append_assoc ..).symm, .inr hlast⟩
  have hbracket : front' = [] ∨ ∃ init, front' = init ++ [']'] :=
    hfront'.imp_right fun ⟨init, _, hinit, hlast⟩ => ⟨init, hlast ▸ hinit⟩
  obtain ⟨host, port, heq, hhost, hport⟩ :=
    exists_hostPort hbracket (fun h => hpart _ h rfl) hcolons
  have hat' : '@' ∉ host ++ behind ':' port := heq ▸ fun h => hat _ h rfl
  rcases hfront with rfl | ⟨user, _, rfl, rfl⟩
  · exact ⟨⟨none, host, port, by rw [heq]; rfl, hat', hhost, hport⟩⟩
  · exact ⟨⟨some user, host, port, by rw [heq]; rfl, hat', hhost, hport⟩⟩

/-- A text with a scheme has an authority with all its parts. -/
theorem nonempty_authority_of_parse {text : String} {u : Uri} {scheme : List Char}
    (h : parse text = .ok u) (hscheme : u.scheme = some scheme) :
    Nonempty (Authority u.authority) := by
  cases parsed_of_parse h with
  | asterisk | path | authority => cases hscheme
  | whole _ ha _ => exact exists_authority ha

end WebSocket.Http.Uri
