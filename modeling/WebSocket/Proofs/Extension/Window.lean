/-
WebSocket/Proofs/Extension/Window.lean

The windows on which both ends agree.

Design.  A parameter is taken over exactly if its name is known and the size that it gives, if any,
is a number from 8 to 15 (`Acceptable`).  What a list of such parameters comes to is the effect of
all the sizes in it (`withWindows`).  Those for our window can only make it smaller, in whatever
order they stand and however many there are, so it is the least of them and of what it was before
(`isLeast_ourBits_withWindows`); of those for the peer's window the last one counts.

Nothing is compressed with a window of less than 9 bits, so 8 counts as 9.  It is the one size that
can be given and is not kept to.
-/
import Mathlib.Order.Bounds.Basic
import WebSocket.Proofs.Extension.DeflateRoundTrip

namespace WebSocket.Extension

/-! ### Sizes -/

/-- The text is a number in decimal digits; a plus sign may precede them. -/
def Denotes (s : List Char) (n : Nat) : Prop :=
  ∃ digits, (s = digits ∨ s = '+' :: digits) ∧ digits ≠ [] ∧ (∀ c ∈ digits, c.isDigit)
    ∧ Nat.ofDigitChars 10 digits 0 = n

/-- Some parameter of this name has this number for its value. -/
def Gives (params : List Param) (name : String) (n : Nat) : Prop :=
  ∃ p ∈ params, p.name = name ∧ ∃ v, p.value = some v ∧ Denotes v.toList n

namespace Deflate

open Flate

theorem parseNumber?_eq_some_iff {s : List Char} {n : Nat} :
    parseNumber? s = some n ↔ Denotes s n := by
  have hplus : ¬Char.isDigit '+' := by decide
  -- Which digits are read is clear from the first character, as a sign is no digit.
  have hread : ∀ digits : List Char, (∀ c ∈ digits, c.isDigit) →
      (s = digits ∨ s = '+' :: digits ↔ (if s.head? = some '+' then s.tail else s) = digits) := by
    intro digits hdigits
    split
    · next hhead =>
      obtain ⟨t, rfl⟩ := List.head?_eq_some_iff.1 hhead
      have hne : '+' :: t ≠ digits := by
        rintro rfl
        exact hplus (hdigits _ List.mem_cons_self)
      simp [hne]
    · next hhead =>
      have hne : s ≠ '+' :: digits := by
        rintro rfl
        exact hhead rfl
      simp [hne]
  unfold parseNumber? Denotes
  simp only [Option.ite_none_left_eq_some, Bool.or_eq_true, List.isEmpty_iff, Bool.not_eq_true',
    not_or, Bool.not_eq_false, List.all_eq_true, Option.some.injEq, Nat.ofDigitChars_eq_foldl]
  constructor
  · rintro ⟨⟨hne, hdigits⟩, rfl⟩
    exact ⟨_, (hread _ hdigits).2 rfl, hne, hdigits, rfl⟩
  · rintro ⟨digits, hs, hne, hdigits, rfl⟩
    rw [(hread _ hdigits).1 hs]
    exact ⟨⟨hne, hdigits⟩, rfl⟩

/-- The size that a parameter gives. -/
def size? (p : Param) : Option Nat :=
  p.value.bind fun v => parseNumber? v.toList

/-- The sizes that the parameters of this name give, in their order. -/
def sizes (name : String) (params : List Param) : List Nat :=
  params.filterMap fun p => if p.name = name then size? p else none

theorem mem_sizes_iff {name : String} {params : List Param} {n : Nat} :
    n ∈ sizes name params ↔ Gives params name n := by
  simp only [sizes, size?, Gives, List.mem_filterMap, Option.ite_none_right_eq_some,
    Option.bind_eq_some_iff, parseNumber?_eq_some_iff]

/-- The value of the parameter, if it has one, is the size of a window. -/
def InRange (p : Param) : Prop :=
  ∀ v, p.value = some v → ∃ n, Denotes v.toList n ∧ 8 ≤ n ∧ n ≤ 15

/-- A size is read, or there is one and it is refused. -/
theorem windowBits_cases (p : Param) :
    windowBits p = .ok (size? p) ∧ InRange p
      ∨ (∃ err, windowBits p = .error err) ∧ ¬InRange p := by
  unfold windowBits size? InRange
  rcases hvalue : p.value with - | v
  · exact .inl ⟨rfl, nofun⟩
  simp only [Option.bind_some, Option.some.injEq, forall_eq', ← parseNumber?_eq_some_iff]
  rcases parseNumber? v.toList with - | n
  · exact .inr ⟨⟨_, rfl⟩, by simp⟩
  · by_cases hrange : 8 ≤ n ∧ n ≤ 15
    · exact .inl ⟨by simp [hrange], n, rfl, hrange⟩
    · exact .inr ⟨⟨.windowParam p.name v, by simpa using hrange⟩, by simpa using hrange⟩

/-! ### Taking over parameters -/

variable {κ κ' δ : Type} {e e' : Deflate κ δ} {p : Param} {params : List Param}

/-- The parameters that can be taken over. -/
inductive Acceptable (p : Param) : Prop
  | promise (hname : p.name = serverNoContextTakeover ∨ p.name = clientNoContextTakeover)
  | window (hname : p.name = serverMaxWindowBits ∨ p.name = clientMaxWindowBits)
      (hrange : InRange p)

/-- With the windows that the parameters come to. -/
def withWindows (e : Deflate κ δ) (params : List Param) : Deflate κ δ :=
  { e with
    ourBits := ((sizes clientMaxWindowBits params).map (max 9)).foldl min e.ourBits
    theirBits := ((sizes serverMaxWindowBits params).map (max 9)).foldl (fun _ n => n) e.theirBits }

@[simp] theorem withWindows_nil (e : Deflate κ δ) : e.withWindows [] = e := rfl

theorem withWindows_append (e : Deflate κ δ) (ps qs : List Param) :
    e.withWindows (ps ++ qs) = (e.withWindows ps).withWindows qs := by
  simp only [withWindows, sizes, List.filterMap_append, List.map_append, List.foldl_append]

theorem names_nodup :
    [serverNoContextTakeover, clientNoContextTakeover, serverMaxWindowBits,
      clientMaxWindowBits].Nodup := by
  decide

theorem Acceptable.inRange (h : Acceptable p)
    (hname : p.name = serverMaxWindowBits ∨ p.name = clientMaxWindowBits) : InRange p := by
  cases h with
  | promise hpromise =>
    have hnames := names_nodup
    rcases hname with hname | hname <;> rcases hpromise with hpromise | hpromise <;>
      simp [← hname, ← hpromise] at hnames
  | window _ hrange => exact hrange

/-- What can be taken over is taken over for its sizes. -/
theorem configureParam_of_acceptable (e : Deflate κ δ) (h : Acceptable p) :
    e.configureParam p = .ok (e.withWindows [p]) := by
  have hnames := names_nodup
  simp only [List.nodup_cons, List.mem_cons, List.not_mem_nil, or_false, not_or] at hnames
  obtain ⟨⟨-, hss, hsc⟩, ⟨hcs, hcc⟩, hsides, -⟩ := hnames
  cases h with
  | promise hname =>
    have hnone : e.withWindows [p] = e := by
      rcases hname with hname | hname <;> simp [withWindows, sizes, *]
    simp [configureParam, hname, hnone]
  | window hname hrange =>
    obtain ⟨hwindow, -⟩ | ⟨-, hnot⟩ := windowBits_cases p
    · rcases hname with hname | hname <;> rcases hsize : size? p with - | n <;>
        simp [configureParam, withWindows, sizes, Ne.symm, *]
    · exact absurd hrange hnot

theorem exists_error_of_not_acceptable (e : Deflate κ δ) (h : ¬Acceptable p) :
    ∃ err, e.configureParam p = .error err := by
  have hwindow (hname : p.name = serverMaxWindowBits ∨ p.name = clientMaxWindowBits) :
      ∃ err, windowBits p = .error err :=
    (windowBits_cases p).elim (fun hok => absurd (.window hname hok.2) h) And.left
  unfold configureParam
  split
  · next hname => exact absurd (.promise (by simpa using hname)) h
  · split
    · next hname =>
      obtain ⟨err, herr⟩ := hwindow (.inl hname)
      exact ⟨err, by rw [herr]⟩
    · split
      · next hname =>
        obtain ⟨err, herr⟩ := hwindow (.inr hname)
        exact ⟨err, by rw [herr]⟩
      · exact ⟨_, rfl⟩

/-- A list is taken over if all of it can be, and then for the sizes in it. -/
theorem configureParams_eq_ok_iff :
    e.configureParams params = (e', .ok ())
      ↔ (∀ p ∈ params, Acceptable p) ∧ e' = e.withWindows params := by
  induction params generalizing e with
  | nil => simp [configureParams, eq_comm]
  | cons p params ih =>
    by_cases h : Acceptable p
    · simp only [configureParams, configureParam_of_acceptable e h, ih, List.forall_mem_cons, h,
        true_and, ← withWindows_append, List.singleton_append]
    · obtain ⟨err, herr⟩ := exists_error_of_not_acceptable e h
      simp [configureParams, herr, h]

/-- A configuration is accepted if all of it can be taken over and the peer has promised to forget
each message. -/
theorem configure_eq_ok_iff :
    e.configure params = (e', .ok ())
      ↔ ((∀ p ∈ params, Acceptable p) ∧ ∃ p ∈ params, p.name = serverNoContextTakeover)
        ∧ e' = e.withWindows params := by
  by_cases hall : ∀ p ∈ params, Acceptable p
  · have htaken := (configureParams_eq_ok_iff (e := e)).2 ⟨hall, rfl⟩
    simp only [configure, htaken, List.any_eq_true, beq_iff_eq]
    split
    · next hpromise =>
      exact ⟨fun h => ⟨⟨hall, hpromise⟩, (Prod.mk.inj h).1.symm⟩, fun h => by rw [h.2]⟩
    · next hpromise => simp [hpromise]
  · rcases htaken : e.configureParams params with ⟨taken, err | ⟨⟩⟩
    · simp [configure, htaken, hall]
    · exact absurd (configureParams_eq_ok_iff.1 htaken).1 hall

theorem eight_le_of_gives (hall : ∀ p ∈ params, Acceptable p) {n : Nat}
    (hn : Gives params clientMaxWindowBits n) : 8 ≤ n := by
  obtain ⟨p, hp, hname, v, hvalue, hdenotes⟩ := hn
  obtain ⟨k, hk, hrange, -⟩ := (hall p hp).inRange (.inr hname) v hvalue
  rw [← parseNumber?_eq_some_iff] at hdenotes hk
  rwa [Option.some.inj (hdenotes.symm.trans hk)]

/-- Our window is the least of the one before and those that are given, each of which is one of 9
bits at least. -/
theorem isLeast_ourBits_withWindows (e : Deflate κ δ) (params : List Param) :
    IsLeast {w | w = e.ourBits ∨ ∃ n, Gives params clientMaxWindowBits n ∧ max 9 n = w}
      (e.withWindows params).ourBits := by
  have hset : {w | w = e.ourBits ∨ ∃ n, Gives params clientMaxWindowBits n ∧ max 9 n = w}
      = {w | w ∈ e.ourBits :: (sizes clientMaxWindowBits params).map (max 9)} := by
    simp only [List.mem_cons, List.mem_map, mem_sizes_iff]
  rw [hset]
  exact List.min?_eq_some_iff.1 List.min?_cons'

/-- **The window that was negotiated.**  A configuration of any parameters, in any order and however
often, that is accepted has none but the four of the extension.  The peer has promised in it to
forget each message, and the sizes of windows in it are numbers from 8 to 15.

From then on our window is the least of the one before and those given for it, except that a window
of 8 bits counts as one of 9, the smallest with which anything is compressed.  So it is never larger
than before, and never larger than one that is given, but for an 8 where it was larger before.

A peer that has a window of a size that is given, with 9 for 8, or of the size before, restores
whatever is sent.  It is assumed of the compressor that its flushes can be read one by one, and no
message is longer than what the peer takes. -/
theorem window_of_configure [Compressor κ] (h : e.configure params = (e', .ok ())) :
    (∀ p ∈ params, p.name ∈ [serverNoContextTakeover, clientNoContextTakeover,
        serverMaxWindowBits, clientMaxWindowBits])
      ∧ (∃ p ∈ params, p.name = serverNoContextTakeover)
      ∧ (∀ p ∈ params, p.name = serverMaxWindowBits ∨ p.name = clientMaxWindowBits →
        ∀ v, p.value = some v → ∃ n, Denotes v.toList n ∧ 8 ≤ n ∧ n ≤ 15)
      ∧ IsLeast {w | w = e.ourBits ∨ ∃ n, Gives params clientMaxWindowBits n ∧ max 9 n = w}
        e'.ourBits
      ∧ e'.ourBits ≤ e.ourBits
      ∧ (∀ n, Gives params clientMaxWindowBits n → (e'.ourBits ≤ n ↔ n ≠ 8 ∨ e.ourBits ≤ 8))
      ∧ ∀ (peer : Deflate κ' Inflater) (fs : List Frame),
        (e.ourBits ≤ peer.theirBits
          ∨ ∃ n, Gives params clientMaxWindowBits n ∧ max 9 n ≤ peer.theirBits) →
        isWellFormed false fs → (∀ m ∈ messages [] fs, SyncFlushes κ e'.ourBits m) →
        (∀ m ∈ messages [] fs, m.flatten.length ≤ peer.maxMessageSize) →
        ∃ gs, e'.encodeAll fs = .ok gs ∧ peer.decodeAll gs = .ok fs := by
  obtain ⟨⟨hall, hpromise⟩, rfl⟩ := configure_eq_ok_iff.1 h
  have hleast := isLeast_ourBits_withWindows e params
  have hbefore : (e.withWindows params).ourBits ≤ e.ourBits := hleast.2 (.inl rfl)
  have hgiven {n : Nat} (hn : Gives params clientMaxWindowBits n) :
      (e.withWindows params).ourBits ≤ max 9 n := hleast.2 (.inr ⟨n, hn, rfl⟩)
  refine ⟨fun p hp => ?_, hpromise, fun p hp => (hall p hp).inRange, hleast, hbefore,
    fun n hn => ?_, fun peer fs hpeer hfs hflushes hsize => ?_⟩
  · cases hall p hp with
    | promise hname => simp [← or_assoc, hname]
    | window hname _ => simp [hname]
  · have hlimit := hgiven hn
    have height : 8 ≤ n := eight_le_of_gives hall hn
    -- A window that was not there before has at least 9 bits.
    have hnine : (e.withWindows params).ourBits = e.ourBits
        ∨ 9 ≤ (e.withWindows params).ourBits := by
      obtain hbits | ⟨k, -, hbits⟩ := hleast.1
      · exact .inl hbits
      · exact .inr (hbits ▸ le_max_left 9 k)
    omega
  · refine (inStep_nil ?_).restores hfs hflushes hsize
    rcases hpeer with hpeer | ⟨n, hn, hpeer⟩
    · exact hbefore.trans hpeer
    · exact (hgiven hn).trans hpeer

/-- Two sizes for our window, in front of the promise and behind it, the first of them with a sign
and a zero. -/
theorem window_of_configure_of_two_sizes :
    let e : Deflate LzCompressor Inflater := { ourBits := 12 }
    let params : List Param := [{ name := clientMaxWindowBits, value := "+010" },
      { name := serverNoContextTakeover }, { name := clientMaxWindowBits, value := "11" }]
    let peer : Deflate LzCompressor Inflater := { theirBits := 10 }
    let fs : List Frame := [.single .text [72, 105]]
    ∃ e', e.configure params = (e', .ok ()) ∧ e'.ourBits = 10 ∧ isWellFormed false fs
      ∧ ∃ gs, e'.encodeAll fs = .ok gs ∧ peer.decodeAll gs = .ok fs := by
  intro e params peer fs
  have h : e.configure params = ({ e with ourBits := 10 }, .ok ()) := by rfl
  have hfs : isWellFormed false fs := rfl
  have hgiven : Gives params clientMaxWindowBits 10 :=
    ⟨_, List.mem_cons_self, rfl, _, rfl, parseNumber?_eq_some_iff.1 (by decide)⟩
  have hsize : ∀ m ∈ messages [] fs, m.flatten.length ≤ peer.maxMessageSize := by
    rw [show messages [] fs = [[[72, 105]], []] from rfl]
    decide
  have hrestores := (window_of_configure h).2.2.2.2.2.2 peer fs
  exact ⟨_, h, rfl, hfs, hrestores (.inr ⟨10, hgiven, Nat.le_refl 10⟩) hfs
    (fun m _ => LzCompressor.syncFlushes (Nat.le_add_right 10 5) m) hsize⟩

/-- A window of 8 bits is accepted, and one of 9 is used. -/
theorem window_beyond_eight_bits :
    let e : Deflate LzCompressor Inflater := {}
    let params : List Param := [{ name := serverNoContextTakeover },
      { name := clientMaxWindowBits, value := "8" }]
    ∃ e', e.configure params = (e', .ok ()) ∧ Gives params clientMaxWindowBits 8
      ∧ ¬e'.ourBits ≤ 8 := by
  intro e params
  have h : e.configure params = ({ e with ourBits := 9 }, .ok ()) := by rfl
  have hgiven : Gives params clientMaxWindowBits 8 :=
    ⟨_, List.mem_cons_of_mem _ List.mem_cons_self, rfl, _, rfl,
      parseNumber?_eq_some_iff.1 (by decide)⟩
  exact ⟨_, h, hgiven, by decide⟩

end Deflate

end WebSocket.Extension
