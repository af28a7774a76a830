/-
WebSocket/Proofs/Pipeline/Mirror.lean

The two ways through the extensions of a pipeline mirror each other.

Design.  One relation describes both ways: a frame visits extensions one after the other, and
it comes through or is refused by one of them (`Visits`).  On its way out it visits them in
order (`visits_encodeThrough`), on its way in backwards (`visits_decodeThrough`).  `Traffic`
is a pipeline with what it has handed to either side, and any frames in either direction.

When each extension undoes at one end what it does at the other, so does the whole pipeline
(`decodeThrough_of_encodeThrough`): the induction is on the extensions, the frame between two
of them being the one that the inner ones restore and the outer one has made.  `Ends` are two
pipelines, and frames that go from one to the other, or back.

An `Envelope` changes every frame, and opens only frames that are as it has left them.  So the
order of two of them shows in what is sent, and in what is refused.
-/
import Mathlib.Data.List.Forall2
import WebSocket.Extension.Marker
import WebSocket.Pipeline

namespace WebSocket

namespace Pipeline

variable {ε : Type} {act : ε → Frame → ε × Except ExtensionError Frame}

/-! ### A way through extensions -/

/-- A frame comes through: each extension acts on what the one before it has made. -/
inductive Through (act : ε → Frame → ε × Except ExtensionError Frame) :
    List ε → Frame → List ε → Frame → Prop
  | nil (f : Frame) : Through act [] f [] f
  | cons {e e' : ε} {es es' : List ε} {f g h : Frame} (he : act e f = (e', .ok g))
      (hes : Through act es g es' h) : Through act (e :: es) f (e' :: es') h

/-- What becomes of a frame that visits extensions: it comes through, or the extensions
before one come through, this one refuses, and those behind it stay as they are. -/
inductive Visits (act : ε → Frame → ε × Except ExtensionError Frame) (es : List ε) (f : Frame)
    (es' : List ε) : Except ExtensionError Frame → Prop
  | handed {g : Frame} (h : Through act es f es' g) : Visits act es f es' (.ok g)
  | refused {front front' back : List ε} {e e' : ε} {g : Frame} {err : ExtensionError}
      (hes : es = front ++ e :: back) (h : Through act front f front' g)
      (he : act e g = (e', .error err)) (hes' : es' = front' ++ e' :: back) :
      Visits act es f es' (.error err)

theorem Through.snoc {e e' : ε} {es es' : List ε} {f g h : Frame}
    (hes : Through act es f es' g) (he : act e g = (e', .ok h)) :
    Through act (es ++ [e]) f (es' ++ [e']) h := by
  induction hes with
  | nil => exact .cons he (.nil h)
  | cons hfirst _ ih => exact .cons hfirst (ih he)

theorem Visits.cons {e e' : ε} {es es' : List ε} {f g : Frame} {r : Except ExtensionError Frame}
    (he : act e f = (e', .ok g)) (h : Visits act es g es' r) :
    Visits act (e :: es) f (e' :: es') r := by
  cases h with
  | handed h => exact .handed (.cons he h)
  | refused hes h hrefuse hes' =>
    subst hes hes'
    exact .refused rfl (.cons he h) hrefuse rfl

theorem Through.visits_snoc {es es' : List ε} {f g : Frame} (h : Through act es f es' g) (e : ε) :
    Visits act (es ++ [e]) f (es' ++ [(act e g).1]) (act e g).2 := by
  rcases he : act e g with ⟨e', err | g'⟩
  · exact .refused rfl h he rfl
  · exact .handed (h.snoc he)

/-- What is behind an extension that refuses does not matter. -/
theorem Visits.append {es es' : List ε} {f : Frame} {err : ExtensionError}
    (h : Visits act es f es' (.error err)) (more : List ε) :
    Visits act (es ++ more) f (es' ++ more) (.error err) := by
  cases h with
  | refused hes h hrefuse hes' =>
    subst hes hes'
    exact .refused (List.append_assoc ..) h hrefuse (List.append_assoc ..)

variable [Extension ε]

theorem visits_encodeThrough (es : List ε) (f : Frame) :
    Visits Extension.encode es f (encodeThrough es f).1 (encodeThrough es f).2 := by
  induction es generalizing f with
  | nil => exact .handed (.nil f)
  | cons e es ih =>
    rcases he : Extension.encode e f with ⟨e', err | g⟩
    · simp only [encodeThrough, he]
      exact .refused (List.nil_append _).symm (.nil f) he (List.nil_append _).symm
    · simp only [encodeThrough, he]
      exact .cons he (ih g)

theorem visits_decodeThrough (es : List ε) (f : Frame) :
    Visits Extension.decode es.reverse f (decodeThrough es f).1.reverse (decodeThrough es f).2 := by
  induction es with
  | nil => exact .handed (.nil f)
  | cons e es ih =>
    rcases hes : decodeThrough es f with ⟨es', err | g⟩
    · rw [hes] at ih
      simp only [decodeThrough, hes, List.reverse_cons]
      exact ih.append [e]
    · -- The first extension is the last on the way in.
      rw [hes] at ih
      simp only [decodeThrough, hes, List.reverse_cons]
      cases ih with
      | handed h => exact h.visits_snoc e

/-! ### Traffic in both directions -/

/-- A pipeline, and what it has handed to either side. -/
structure Traffic (ε : Type) where
  pipeline : Pipeline ε
  ingress : List Frame := []
  egress : List Frame := []
  /-- What the calls have returned. -/
  results : List (Except ExtensionError Unit) := []

/-- A frame on its way. -/
inductive Travel where
  | outward (f : Frame)
  | inward (f : Frame)
  deriving DecidableEq, Repr

namespace Traffic

/-- What a call hands on. -/
def handed : Except ExtensionError Frame → List Frame
  | .ok g => [g]
  | .error _ => []

/-- What a call returns. -/
def result (r : Except ExtensionError Frame) : Except ExtensionError Unit :=
  r.map fun _ => ()

/-- Takes a frame through the pipeline. -/
def step (s : Traffic ε) : Travel → Traffic ε
  | .outward f =>
    let (p, r) := s.pipeline.outgoing f
    { s with pipeline := p, egress := s.egress ++ handed r, results := s.results ++ [result r] }
  | .inward f =>
    let (p, r) := s.pipeline.incoming f
    { s with pipeline := p, ingress := s.ingress ++ handed r, results := s.results ++ [result r] }

/-- Takes one frame after the other. -/
def run (s : Traffic ε) (travels : List Travel) : Traffic ε :=
  travels.foldl step s

/-- What one call has to do.  On the way out the frame visits the extensions in order, and
`egress` gets what comes through.  On the way in it visits the same extensions backwards, and
`ingress` gets what comes through.  The call returns the error of the extension that refused
the frame, if any, and then neither side gets anything. -/
inductive Conducts (s : Traffic ε) : Travel → Traffic ε → Prop
  | outward {f : Frame} {es : List ε} {r : Except ExtensionError Frame}
      (h : Visits Extension.encode s.pipeline.extensions f es r) :
      s.Conducts (.outward f)
        { pipeline := ⟨es⟩, ingress := s.ingress, egress := s.egress ++ handed r
          results := s.results ++ [result r] }
  | inward {f : Frame} {es : List ε} {r : Except ExtensionError Frame}
      (h : Visits Extension.decode s.pipeline.extensions.reverse f es.reverse r) :
      s.Conducts (.inward f)
        { pipeline := ⟨es⟩, ingress := s.ingress ++ handed r, egress := s.egress
          results := s.results ++ [result r] }

/-- One call after the other does so. -/
inductive ConductsAll : Traffic ε → List Travel → Traffic ε → Prop
  | nil (s : Traffic ε) : ConductsAll s [] s
  | cons {s s' s'' : Traffic ε} {t : Travel} {travels : List Travel} (h : s.Conducts t s')
      (hrest : ConductsAll s' travels s'') : ConductsAll s (t :: travels) s''

theorem conducts_step (s : Traffic ε) (t : Travel) : s.Conducts t (s.step t) := by
  cases t with
  | outward f => exact .outward (visits_encodeThrough _ f)
  | inward f => exact .inward (visits_decodeThrough _ f)

theorem conductsAll_run (s : Traffic ε) (travels : List Travel) :
    ConductsAll s travels (s.run travels) := by
  induction travels generalizing s with
  | nil => exact .nil s
  | cons t travels ih => exact .cons (s.conducts_step t) (ih (s.step t))

end Traffic

/-! ### Undoing -/

/-- Where a first extension has made one frame of another, a second one that is related to it
restores it, and then they are related again. -/
def Undoes (R : ε → ε → Prop) : Prop :=
  ∀ ⦃a b : ε⦄, R a b → ∀ ⦃f g : Frame⦄ ⦃a' : ε⦄, Extension.encode a f = (a', .ok g) →
    ∃ b', Extension.decode b g = (b', .ok f) ∧ R a' b'

theorem encodeThrough_cons_eq_ok {e : ε} {es es' : List ε} {f h : Frame}
    (heq : encodeThrough (e :: es) f = (es', .ok h)) :
    ∃ e' g es'', Extension.encode e f = (e', .ok g) ∧ encodeThrough es g = (es'', .ok h)
      ∧ es' = e' :: es'' := by
  rcases he : Extension.encode e f with ⟨e', err | g⟩
  · simp [encodeThrough, he] at heq
  · simp only [encodeThrough, he, Prod.mk.injEq] at heq
    exact ⟨e', g, (encodeThrough es g).1, rfl, Prod.ext rfl heq.2, heq.1.symm⟩

/-- Extensions restore what related extensions have made of a frame, if each does so on the
frames that get to it.  These are the frames that are fit for an extension and those behind
it. -/
theorem decodeThrough_of_encodeThrough {R : ε → ε → Prop} (Fit : List ε → Frame → Prop)
    (hundo : ∀ ⦃a b a' : ε⦄ ⦃as : List ε⦄ ⦃f g : Frame⦄, R a b → Fit (a :: as) f →
      Extension.encode a f = (a', .ok g) →
      Fit as g ∧ ∃ b', Extension.decode b g = (b', .ok f) ∧ R a' b')
    {as bs : List ε} (h : List.Forall₂ R as bs) {f g : Frame} (hf : Fit as f) {as' : List ε}
    (hg : encodeThrough as f = (as', .ok g)) :
    ∃ bs', decodeThrough bs g = (bs', .ok f) ∧ List.Forall₂ R as' bs' := by
  induction h generalizing f as' with
  | nil =>
    obtain ⟨rfl, hfg⟩ := Prod.mk.inj hg
    obtain rfl : f = g := Except.ok.inj hfg
    exact ⟨[], rfl, .nil⟩
  | @cons a b as bs hab _ ih =>
    -- The frame between the first extension and the others is what the others restore.
    obtain ⟨a', m, as'', ha, has, rfl⟩ := encodeThrough_cons_eq_ok hg
    obtain ⟨hm, b', hb, hab'⟩ := hundo hab hf ha
    obtain ⟨bs', hbs, hrest⟩ := ih hm has
    exact ⟨b' :: bs', by simp only [decodeThrough, hbs, hb], .cons hab' hrest⟩

theorem encodeThrough_of_outgoing {p p' : Pipeline ε} {f : Frame}
    {r : Except ExtensionError Frame} (h : p.outgoing f = (p', r)) :
    encodeThrough p.extensions f = (p'.extensions, r) := by
  cases h
  rfl

/-- A pipeline restores what a pipeline of related extensions has made of a frame. -/
theorem Undoes.incoming_of_outgoing {R : ε → ε → Prop} (hR : Undoes R) {p p' q : Pipeline ε}
    (h : List.Forall₂ R p.extensions q.extensions) {f g : Frame}
    (hg : p.outgoing f = (p', .ok g)) :
    ∃ q', q.incoming g = (q', .ok f) ∧ List.Forall₂ R p'.extensions q'.extensions := by
  obtain ⟨bs', hbs, hrest⟩ := decodeThrough_of_encodeThrough (R := R) (fun _ _ => True)
    (fun _ _ _ _ _ _ hab _ ha => ⟨trivial, hR hab ha⟩) h trivial (encodeThrough_of_outgoing hg)
  exact ⟨⟨bs'⟩, by simp only [incoming, hbs], hrest⟩

/-! ### Two ends -/

/-- The pipelines at the two ends of a connection. -/
structure Ends (ε : Type) where
  near : Pipeline ε
  far : Pipeline ε

/-- From the near end to the far end, or back. -/
inductive Way where
  | there
  | back
  deriving DecidableEq, Repr

/-- A relation between the near end and the far end, as one between the end that sends and
the end that receives. -/
def Way.orient {α : Type} (R : α → α → Prop) : Way → α → α → Prop
  | there => R
  | back => flip R

namespace Ends

/-- Lets the end that sends this way be the near one. -/
def turn (s : Ends ε) : Way → Ends ε
  | .there => s
  | .back => ⟨s.far, s.near⟩

omit [Extension ε] in
theorem turn_turn (s : Ends ε) (way : Way) : (s.turn way).turn way = s := by
  cases way <;> rfl

/-- Sends a frame to the far end: the ends behind that, and what the far end makes of the
frame.  If the frame is refused on its way out, that is all. -/
def send (s : Ends ε) (f : Frame) :
    Except ExtensionError (Ends ε × Except ExtensionError Frame) :=
  match s.near.outgoing f with
  | (_, .error e) => .error e
  | (near, .ok g) =>
    let (far, r) := s.far.incoming g
    .ok (⟨near, far⟩, r)

/-- Sends a frame one way. -/
def exchange (s : Ends ε) (way : Way) (f : Frame) :
    Except ExtensionError (Ends ε × Except ExtensionError Frame) :=
  ((s.turn way).send f).map fun (s, r) => (s.turn way, r)

theorem exchange_eq_ok {s s' : Ends ε} {way : Way} {f : Frame} {r : Except ExtensionError Frame}
    (h : s.exchange way f = .ok (s', r)) :
    ∃ g, (s.turn way).near.outgoing f = ((s'.turn way).near, .ok g)
      ∧ (s.turn way).far.incoming g = ((s'.turn way).far, r) := by
  unfold exchange send at h
  rcases hout : (s.turn way).near.outgoing f with ⟨near, e | g⟩
  · simp [hout, Except.map] at h
  · simp only [hout, Except.map, Except.ok.injEq, Prod.mk.injEq] at h
    obtain ⟨rfl, rfl⟩ := h
    rw [turn_turn]
    exact ⟨g, rfl, rfl⟩

/-- Sends one frame after the other, until one is refused on its way out. -/
def run (s : Ends ε) :
    List (Way × Frame) → Except ExtensionError (Ends ε × List (Except ExtensionError Frame))
  | [] => .ok (s, [])
  | (way, f) :: exchanges =>
    match s.exchange way f with
    | .error e => .error e
    | .ok (s, r) => (s.run exchanges).map fun (s, rs) => (s, r :: rs)

/-- Where every exchange restores its frame and leaves the ends as they should be, a run
restores all frames. -/
theorem run_of_exchange {I : Ends ε → Prop} {exchanges : List (Way × Frame)}
    (hstep : ∀ x ∈ exchanges, ∀ ⦃s s' : Ends ε⦄ ⦃r : Except ExtensionError Frame⦄, I s →
      s.exchange x.1 x.2 = .ok (s', r) → r = .ok x.2 ∧ I s')
    {s s' : Ends ε} (h : I s) {rs : List (Except ExtensionError Frame)}
    (hs : s.run exchanges = .ok (s', rs)) : rs = exchanges.map fun x => .ok x.2 := by
  induction exchanges generalizing s s' rs with
  | nil =>
    obtain ⟨-, rfl⟩ := Prod.mk.inj (Except.ok.inj hs)
    rfl
  | cons x exchanges ih =>
    obtain ⟨way, f⟩ := x
    rcases hx : s.exchange way f with e | ⟨s₁, r⟩
    · simp [run, hx] at hs
    · rcases hrest : s₁.run exchanges with e | ⟨s₂, rs₂⟩
      · simp [run, hx, hrest, Except.map] at hs
      · simp only [run, hx, hrest, Except.map, Except.ok.injEq, Prod.mk.injEq] at hs
        obtain ⟨-, rfl⟩ := hs
        obtain ⟨rfl, h₁⟩ := hstep _ List.mem_cons_self h hx
        rw [ih (fun x hx => hstep x (List.mem_cons_of_mem _ hx)) h₁ hrest]
        rfl

omit [Extension ε] in
theorem forall₂_turn {R : ε → ε → Prop} {s : Ends ε} (way : Way) :
    List.Forall₂ (way.orient R) (s.turn way).near.extensions (s.turn way).far.extensions
      ↔ List.Forall₂ R s.near.extensions s.far.extensions := by
  cases way with
  | there => rfl
  | back => exact ⟨List.Forall₂.flip, List.Forall₂.flip⟩

theorem exchange_of_undoes {R : ε → ε → Prop} {way : Way} (hR : Undoes (way.orient R))
    {s s' : Ends ε} (h : List.Forall₂ R s.near.extensions s.far.extensions) {f : Frame}
    {r : Except ExtensionError Frame} (hs : s.exchange way f = .ok (s', r)) :
    r = .ok f ∧ List.Forall₂ R s'.near.extensions s'.far.extensions := by
  obtain ⟨g, hout, hin⟩ := exchange_eq_ok hs
  obtain ⟨q, hq, hrel⟩ := hR.incoming_of_outgoing ((forall₂_turn way).2 h) hout
  obtain ⟨hfar, rfl⟩ := Prod.mk.inj (hin.symm.trans hq)
  rw [← hfar] at hrel
  exact ⟨rfl, (forall₂_turn way).1 hrel⟩

end Ends

end Pipeline

/-! ### Markers -/

namespace Extension.Marker

theorem encode_eq_ok {e e' : Marker} {f g : Frame} (h : encode e f = (e', .ok g)) :
    e' = { e with encoded := e.encoded + 1 }
      ∧ g = { f with
        rsv := if e.setsBits then f.rsv.union e.bits else f.rsv
        payload := f.payload ++ e.mark } := by
  by_cases hrefuse : e.failEncode = some e.encoded
  · simp [encode, hrefuse] at h
  · simp only [encode, hrefuse, if_false, Prod.mk.injEq, Except.ok.injEq] at h
    exact ⟨h.1.symm, h.2.symm⟩

end Extension.Marker

/-! ### Envelopes -/

/-- An extension that stamps payloads: behind each it puts its stamp and the number of the frame,
and on the way in it takes them off again, if they are the right ones. -/
structure Extension.Envelope where
  stamp : UInt8
  /-- The number of frames that were stamped. -/
  stamped : Nat := 0
  /-- The number of frames that were opened. -/
  opened : Nat := 0
  deriving DecidableEq, Repr

namespace Extension.Envelope

/-- Stamps a frame on its way out. -/
def encode (e : Envelope) (frame : Frame) : Envelope × Except ExtensionError Frame :=
  let payload := frame.payload ++ [e.stamp, UInt8.ofNat e.stamped]
  ({ e with stamped := e.stamped + 1 }, .ok { frame with payload })

/-- Opens a frame on its way in. -/
def decode (e : Envelope) (frame : Frame) : Envelope × Except ExtensionError Frame :=
  if [e.stamp, UInt8.ofNat e.opened] <:+ frame.payload then
    let payload := frame.payload.take (frame.payload.length - 2)
    ({ e with opened := e.opened + 1 }, .ok { frame with payload })
  else (e, .error (.custom "wrong stamp"))

instance : Extension Envelope where
  name _ := "envelope"
  params _ := []
  reservedBits _ := {}
  configure e _ := (e, .ok ())
  encode := encode
  decode := decode

/-- Each of two ends opens what the other one stamps. -/
structure Faces (a b : Envelope) : Prop where
  stamp : a.stamp = b.stamp
  there : a.stamped = b.opened
  back : b.stamped = a.opened

theorem Faces.symm {a b : Envelope} (h : a.Faces b) : b.Faces a :=
  ⟨h.stamp.symm, h.back, h.there⟩

theorem undoes_faces (way : Pipeline.Way) : Pipeline.Undoes (way.orient Faces) := by
  -- Either end is as good as the other.
  have horient {a b : Envelope} : way.orient Faces a b ↔ a.Faces b := by
    cases way with
    | there => rfl
    | back => exact ⟨Faces.symm, Faces.symm⟩
  intro a b h f g a' ha
  have hab := horient.1 h
  obtain ⟨rfl, hg⟩ := Prod.mk.inj ha
  obtain rfl := Except.ok.inj hg
  refine ⟨{ b with opened := b.opened + 1 }, ?_,
    horient.2 ⟨hab.stamp, congrArg (· + 1) hab.there, hab.back⟩⟩
  simp [Extension.decode, decode, hab.stamp, hab.there]

end Extension.Envelope

namespace Pipeline

/-! ### Both chains -/

variable {ε : Type} [Extension ε]

/-- **The two chains mirror each other.**  A pipeline is built from any extensions, and it holds
them in their order.  Whatever frames go through it in either direction, in any interleaving,
every call takes its frame through `encode` of the extensions in order and hands it to `egress`,
or through `decode` of the same extensions backwards and hands it to `ingress`; where an
extension refuses the frame, the call returns its error, and those behind it and the side beyond
do not see the frame.

Let pipelines at two ends be built from equal extensions, and let each extension undo at one
end what it does at the other, as long as they stay related in some way.  Then every frame
that comes through at one end is restored at the other, with any frames before it, in the
directions in which the extensions undo each other. -/
theorem chains_mirror (es : List ε) (encoder decoder : ReservedBits) :
    let p := (build es encoder decoder).pipeline
    p.extensions = es
    ∧ (∀ travels,
      Traffic.ConductsAll { pipeline := p } travels (Traffic.run { pipeline := p } travels))
    ∧ ∀ (encoder' decoder' : ReservedBits) (R : ε → ε → Prop) (exchanges : List (Way × Frame)),
      (∀ e ∈ es, R e e) → (∀ x ∈ exchanges, Undoes (x.1.orient R)) →
      let q := (build es encoder' decoder').pipeline
      q.extensions = es
      ∧ ∀ s rs, Ends.run ⟨p, q⟩ exchanges = .ok (s, rs) → rs = exchanges.map fun x => .ok x.2 := by
  intro p
  refine ⟨rfl, Traffic.conductsAll_run _, ?_⟩
  intro encoder' decoder' R exchanges hes hR q
  refine ⟨rfl, fun s rs hrun => ?_⟩
  exact Ends.run_of_exchange (I := fun s => List.Forall₂ R s.near.extensions s.far.extensions)
    (fun x hx _ _ _ h hs => Ends.exchange_of_undoes (hR x hx) h hs) (List.forall₂_same.2 hes) hrun

/-- Frames go to and fro between two ends with two envelopes each.  The stamps show the order: on
the way out the second one comes behind the first, and a frame with the stamps the other way round
is refused by the second envelope. -/
theorem restored_of_envelopes :
    let es : List Extension.Envelope := [{ stamp := 0xa1 }, { stamp := 0xb2 }]
    let p := (build es {} {}).pipeline
    let q := (build es {} { rsv1 := true }).pipeline
    let travels : List Travel := [.outward (.single .text [104, 105]),
      .inward (.single .ping [0xa1, 0, 0xb2, 0]), .inward (.single .ping [0xb2, 1, 0xa1, 1])]
    let s := Traffic.run { pipeline := p } travels
    let exchanges : List (Way × Frame) := [(.there, .single .text [104, 105]),
      (.back, .single .ping []), (.there, .single .binary [1, 2])]
    p.extensions = es ∧ (∀ e ∈ es, e.Faces e)
    ∧ Traffic.ConductsAll { pipeline := p } travels s
    ∧ s.egress = [.single .text [104, 105, 0xa1, 0, 0xb2, 0]] ∧ s.ingress = [.single .ping []]
    ∧ s.results = [.ok (), .ok (), .error (.custom "wrong stamp")]
    ∧ ∃ s rs, Ends.run ⟨p, q⟩ exchanges = .ok (s, rs)
      ∧ rs = [.ok (.single .text [104, 105]), .ok (.single .ping []),
        .ok (.single .binary [1, 2])] := by
  intro es p q travels s exchanges
  have hes : ∀ e ∈ es, e.Faces e := by
    intro e he
    obtain rfl | rfl : e = { stamp := 0xa1 } ∨ e = { stamp := 0xb2 } := by simpa [es] using he
    · exact ⟨rfl, rfl, rfl⟩
    · exact ⟨rfl, rfl, rfl⟩
  obtain ⟨hbuilt, hconducts, hrestored⟩ := chains_mirror es {} {}
  refine ⟨hbuilt, hes, hconducts travels, by decide +kernel, by decide +kernel,
    by decide +kernel, ?_⟩
  rcases hrun : Ends.run ⟨p, q⟩ exchanges with e | ⟨s, rs⟩
  · have hsome : (Ends.run ⟨p, q⟩ exchanges).isOk := by decide +kernel
    rw [hrun] at hsome
    cases hsome
  · obtain ⟨-, hrs⟩ := hrestored {} { rsv1 := true } Extension.Envelope.Faces exchanges hes
      fun x _ => Extension.Envelope.undoes_faces x.1
    exact ⟨s, rs, rfl, hrs s rs hrun⟩

/-- The marks show the order.  In the second direction the last extension refuses the second
frame, so that the others have seen one frame less than it has. -/
example :
    let es : List Extension.Marker :=
      [{ label := "a", mark := [97] }, { label := "b", mark := [98] },
        { label := "c", mark := [99], failDecode := some 1 }]
    let s := Traffic.run { pipeline := ⟨es⟩ }
      [.outward (.single .text [120]), .inward (.single .text [121]),
        .inward (.single .text [122])]
    s.egress = [.single .text [120, 97, 98, 99]] ∧ s.ingress = [.single .text [121, 99, 98, 97]]
      ∧ s.results = [.ok (), .ok (), .error (.custom "cannot decode")]
      ∧ s.pipeline.extensions.map Extension.Marker.decoded = [1, 1, 2] := by
  decide +kernel

end Pipeline

end WebSocket
