/-
WebSocket/Proofs/Extension/BitsApart.lean

Extensions that claim different reserved bits do not get into each other's way.

An extension that is faithful changes no reserved bit but its own, and restores a frame as
long as the frame came without its bits (`Faithful`).  In a pipeline a frame gets to an
extension with the bits of those before it.  So the whole pipeline restores the frames that
come without any of the bits, if no two extensions claim the same one (`Faithful.restored`):
which frames are fit for the extensions that are left is the invariant of the induction
(`Fits`).

The extensions of a registry claim different bits if they have different names
(`Registry.BitsApart`), so the same holds of the list that is made of configurations with
different names (`Registry.BitsApart.pairwise_instantiate`).
-/
import WebSocket.Extension.Registry
import WebSocket.Proofs.Frame.ReservedBits
import WebSocket.Proofs.Pipeline.Mirror

namespace WebSocket

namespace Extension

variable {ε : Type} [Extension ε]

/-! ### Frames between extensions with different bits -/

/-- Where extensions are related, the first being at the end that sends, they claim the same
bits, the first changes no other bit, and the second restores what came without these bits.
What an extension claims never changes on the way. -/
structure Faithful (R : ε → ε → Prop) : Prop where
  bits {a b : ε} (h : R a b) : reservedBits a = reservedBits b
  own {a b a' : ε} {f g : Frame} (h : R a b) (ha : encode a f = (a', .ok g)) {n : Nat}
    (hn : n ∈ g.rsv) : n ∈ f.rsv ∨ n ∈ reservedBits a
  restores {a b a' : ε} {f g : Frame} (h : R a b) (hf : f.rsv.Apart (reservedBits a))
    (ha : encode a f = (a', .ok g)) : ∃ b', decode b g = (b', .ok f) ∧ R a' b'
  keeps {a b : ε} (h : R a b) (g : Frame) : reservedBits (decode b g).1 = reservedBits b

/-- No bit is claimed twice, and these bits contain none that is claimed. -/
def Fits (claims : List ReservedBits) (bits : ReservedBits) : Prop :=
  (∀ claim ∈ claims, bits.Apart claim) ∧ claims.Pairwise ReservedBits.Apart

namespace Faithful

variable {R : ε → ε → Prop}

/-- Behind an extension, a frame is still fit for the others. -/
theorem fits (hR : Faithful R) {a b a' : ε} {as : List ε} {f g : Frame} (h : R a b)
    (hf : Fits ((a :: as).map reservedBits) f.rsv) (ha : encode a f = (a', .ok g)) :
    Fits (as.map reservedBits) g.rsv := by
  obtain ⟨hclear, hapart⟩ := hf
  rw [List.map_cons, List.pairwise_cons] at hapart
  refine ⟨fun claim hmem n hn => ?_, hapart.2⟩
  -- A bit of the frame was there before, or the extension has set it, which claims it.
  rcases hR.own h ha hn with hold | hown
  · exact hclear claim (List.mem_cons_of_mem _ hmem) n hold
  · exact hapart.1 claim hmem n hown

theorem incoming_of_outgoing (hR : Faithful R) {p p' q : Pipeline ε}
    (h : List.Forall₂ R p.extensions q.extensions) {f g : Frame}
    (hf : Fits (p.extensions.map reservedBits) f.rsv) (hg : p.outgoing f = (p', .ok g)) :
    ∃ q', q.incoming g = (q', .ok f) ∧ List.Forall₂ R p'.extensions q'.extensions := by
  obtain ⟨bs', hbs, hrest⟩ := Pipeline.decodeThrough_of_encodeThrough (R := R)
    (fun as f => Fits (as.map reservedBits) f.rsv)
    (fun a _ _ _ _ _ hab hfit ha =>
      ⟨hR.fits hab hfit ha, hR.restores hab (hfit.1 _ List.mem_cons_self) ha⟩)
    h hf (Pipeline.encodeThrough_of_outgoing hg)
  exact ⟨⟨bs'⟩, by simp only [Pipeline.incoming, hbs], hrest⟩

theorem map_reservedBits (hR : Faithful R) {as bs : List ε} (h : List.Forall₂ R as bs) :
    as.map reservedBits = bs.map reservedBits := by
  induction h with
  | nil => rfl
  | cons hab _ ih => rw [List.map_cons, List.map_cons, hR.bits hab, ih]

theorem map_reservedBits_decodeThrough (hR : Faithful R) {as bs : List ε}
    (h : List.Forall₂ R as bs) (f : Frame) :
    (Pipeline.decodeThrough bs f).1.map reservedBits = bs.map reservedBits := by
  induction h with
  | nil => rfl
  | @cons a b as bs hab _ ih =>
    rcases hbs : Pipeline.decodeThrough bs f with ⟨bs', err | g⟩
    · rw [hbs] at ih
      simp only [Pipeline.decodeThrough, hbs, List.map_cons, ih]
    · rw [hbs] at ih
      simp only [Pipeline.decodeThrough, hbs, List.map_cons, ih, hR.keeps hab]

theorem map_reservedBits_incoming (hR : Faithful R) {p q q' : Pipeline ε}
    (h : List.Forall₂ R p.extensions q.extensions) {g : Frame}
    {r : Except ExtensionError Frame} (hg : q.incoming g = (q', r)) :
    q'.extensions.map reservedBits = q.extensions.map reservedBits := by
  cases hg
  exact hR.map_reservedBits_decodeThrough h g

/-- **Frames are restored if no bit is claimed twice.**  The extensions of two pipelines are
related one by one.  Every frame without any of the bits that the first pipeline lets through
is restored by the second, with any such frames before it. -/
theorem restored (hR : Faithful R) {as bs : List ε} (h : List.Forall₂ R as bs)
    {frames : List Frame} (hf : ∀ f ∈ frames, Fits (bs.map reservedBits) f.rsv)
    {s : Pipeline.Ends ε} {rs : List (Except ExtensionError Frame)}
    (hs : Pipeline.Ends.run ⟨⟨as⟩, ⟨bs⟩⟩ (frames.map fun f => (.there, f)) = .ok (s, rs)) :
    rs = frames.map .ok := by
  -- What the receiving end claims never changes, so a frame that fits at first fits when it
  -- is sent.
  have hrestored := Pipeline.Ends.run_of_exchange
    (I := fun s => List.Forall₂ R s.near.extensions s.far.extensions
      ∧ s.far.extensions.map reservedBits = bs.map reservedBits) ?_ ⟨h, rfl⟩ hs
  · rw [hrestored, List.map_map]
    rfl
  · rintro _ hx s s' r ⟨hrel, hbits⟩ hexchange
    obtain ⟨f, hmem, rfl⟩ := List.mem_map.1 hx
    obtain ⟨g, hout, hin⟩ := Pipeline.Ends.exchange_eq_ok hexchange
    have hfit : Fits (s.near.extensions.map reservedBits) f.rsv := by
      rw [hR.map_reservedBits hrel, hbits]
      exact hf f hmem
    obtain ⟨q, hq, hrel'⟩ := hR.incoming_of_outgoing hrel hfit hout
    have hkept : s'.far.extensions.map reservedBits = s.far.extensions.map reservedBits :=
      hR.map_reservedBits_incoming hrel hin
    obtain ⟨hfar, rfl⟩ := Prod.mk.inj (hin.symm.trans hq)
    rw [← hfar] at hrel'
    exact ⟨rfl, hrel', hkept.trans hbits⟩

end Faithful

/-! ### Extensions with different names -/

namespace Registry

theorem sameName_iff {s t : String} :
    sameName s t ↔ s.toList.map Char.toLower = t.toList.map Char.toLower :=
  beq_iff_eq

/-- Extensions with different names claim different bits, whatever the parameters are. -/
def BitsApart (r : Registry ε) : Prop :=
  ∀ x ∈ r.entries, ∀ y ∈ r.entries, ¬sameName x.1 y.1 → ∀ ps qs,
    (reservedBits (configure x.2 ps).1).Apart (reservedBits (configure y.2 qs).1)

theorem bitsApart_standard : standard.BitsApart := by
  have hentries : standard.entries
      = [(Identity.extensionName, .inl {}), (Deflate.extensionName, .inr {})] := by
    have hname : sameName Identity.extensionName Deflate.extensionName = false := by
      decide +kernel
    simp [standard, register, hname]
  have hidentity (ps : List Param) :
      reservedBits (configure (.inl {} : Standard) ps).1 = ({} : ReservedBits) := rfl
  intro x hx y hy hxy ps qs
  rw [hentries] at hx hy
  simp only [List.mem_cons, List.not_mem_nil, or_false] at hx hy
  rcases hx with rfl | rfl <;> rcases hy with rfl | rfl
  · exact absurd (sameName_iff.2 rfl) hxy
  · rw [hidentity]
    exact ReservedBits.empty_apart _
  · rw [hidentity]
    exact (ReservedBits.empty_apart _).symm
  · exact absurd (sameName_iff.2 rfl) hxy

theorem exists_of_instance? {r : Registry ε} {c : Config} {e : ε} (h : r.instance? c = some e) :
    ∃ x ∈ r.entries, sameName x.1 c.name ∧ (configure x.2 c.params).1 = e := by
  unfold instance? find? at h
  rcases hx : r.entries.find? (fun entry => sameName entry.1 c.name) with - | x
  · simp [hx] at h
  · have hname := List.find?_some hx
    rcases hc : configure x.2 c.params with ⟨e', err | ok⟩
    · simp [hx, hc] at h
    · simp only [hx, hc, Option.map_some, Option.some.injEq] at h
      exact ⟨x, List.mem_of_find?_eq_some hx, hname, by rw [hc, h]⟩

theorem BitsApart.apart {r : Registry ε} (hr : r.BitsApart) {c d : Config}
    (hcd : ¬sameName c.name d.name) {a b : ε} (ha : r.instance? c = some a)
    (hb : r.instance? d = some b) : (reservedBits a).Apart (reservedBits b) := by
  obtain ⟨x, hx, hxc, rfl⟩ := exists_of_instance? ha
  obtain ⟨y, hy, hyd, rfl⟩ := exists_of_instance? hb
  refine hr x hx y hy (fun hxy => hcd ?_) _ _
  rw [sameName_iff] at hxc hyd hxy ⊢
  rw [← hxc, hxy, hyd]

theorem BitsApart.pairwise_instantiate {r : Registry ε} (hr : r.BitsApart) {cs : List Config}
    (hcs : cs.Pairwise fun c d => ¬sameName c.name d.name) :
    ((r.instantiate cs).map reservedBits).Pairwise ReservedBits.Apart := by
  rw [List.pairwise_map, instantiate, List.pairwise_filterMap]
  exact hcs.imp fun hcd a ha b hb => hr.apart hcd ha hb

end Registry

/-! ### Markers -/

namespace Marker

/-- Markers that do the same but for refusals on the way out, and whose only mark are the
bits. -/
structure Matches (a b : Marker) : Prop where
  mark : a.mark = []
  mark' : b.mark = []
  bits : a.bits = b.bits
  setsBits : a.setsBits = b.setsBits
  failDecode : b.failDecode = none

theorem Matches.refl {a : Marker} (hmark : a.mark = []) (hfail : a.failDecode = none) :
    a.Matches a :=
  ⟨hmark, hmark, rfl, rfl, hfail⟩

theorem faithful_matches : Faithful Matches where
  bits h := h.bits
  own {a b a' f g} h ha n hn := by
    obtain ⟨-, rfl⟩ := encode_eq_ok ha
    rcases hs : a.setsBits with - | -
    · exact .inl (by simpa [hs] using hn)
    · have hunion : n ∈ f.rsv.union a.bits := by simpa [hs] using hn
      exact ReservedBits.mem_union.1 hunion
  restores {a b a' f g} h hf ha := by
    have hrsv : (f.rsv.union a.bits).diff a.bits = f.rsv := ReservedBits.diff_union_of_apart hf
    obtain ⟨rfl, rfl⟩ := encode_eq_ok ha
    refine ⟨{ b with decoded := b.decoded + 1 }, ?_, h.mark, h.mark', h.bits, h.setsBits,
      h.failDecode⟩
    rcases hs : a.setsBits with - | -
    · simp [Extension.decode, decode, h.failDecode, h.mark, h.mark', ← h.setsBits, hs]
    · simp [Extension.decode, decode, h.failDecode, h.mark, h.mark', ← h.setsBits, hs, ← h.bits,
        hrsv]
  keeps {a b} h g := by
    simp only [Extension.decode, decode]
    split <;> rfl

/-- Parameters do not change the bits that a marker claims. -/
theorem reservedBits_configure (e : Marker) (ps : List Param) :
    reservedBits (Extension.configure e ps).1 = e.bits := by
  simp only [Extension.configure, configure]
  split <;> rfl

end Marker

end Extension

end WebSocket
