import TlsWire.Proofs.Decode.Forward
import TlsWire.Proofs.Decode.SelfDelimiting
import TlsWire.Proofs.Decode.Sites

/-!
# Errors tell true paths

The path in a decoding error leads from the whole value to a part of it. Its names are those of the
shape (`Shape.Leads`), and its offsets say where in the input each part starts: they never go back,
and none is beyond the end (`Schema.unmarshalWith_error_path`).

An error is told of a site that decoding has reached (`Schema.exists_site`), so all of this is shown
of sites. One step down to a part goes on by a name of the shape and an offset that is neither
before the whole nor behind its end (`Site.Part.below`), and the steps down from the whole value add
up to its path (`Site.Reaches.below`). Scopes count their own bytes, so this needs that a part of
the input keeps its place in the whole one, and that its end is no later (`Site.Part.place`).
-/

namespace TlsWire

variable {α κ β : Type} {length : Nat}

namespace Shape

/-- The names of the steps, outermost first, lead from a value of the shape to a part of it: a field
that is on the wire goes by its name, elements and entries all go by one name, and what is behind an
indirection takes no step. An element of a vector or map takes up bytes, so it starts before the end
of an input of this `length`. -/
inductive Leads (length : Nat) : Shape → List Step → Prop where
  | here {shape : Shape} : Leads length shape []
  | array {elem : Shape} {count pos : Nat} {steps : List Step} (h : Leads length elem steps) :
      Leads length (.array elem count) (⟨Step.elementName, pos⟩ :: steps)
  | vector {elem : Shape} {head : Head} {pos : Nat} {steps : List Step} (hpos : pos < length)
      (h : Leads length elem steps) :
      Leads length (.vector elem head) (⟨Step.elementName, pos⟩ :: steps)
  | key {key value : Shape} {head : Head} {pos : Nat} {steps : List Step} (hpos : pos < length)
      (h : Leads length key steps) :
      Leads length (.map key value head) (⟨Step.elementName, pos⟩ :: steps)
  | value {key value : Shape} {head : Head} {pos : Nat} {steps : List Step} (hpos : pos < length)
      (h : Leads length value steps) :
      Leads length (.map key value head) (⟨Step.elementName, pos⟩ :: steps)
  | pointer {target : Shape} {steps : List Step} (h : Leads length target steps) :
      Leads length (.pointer target) steps
  | optional {target : Shape} {steps : List Step} (h : Leads length target steps) :
      Leads length (.optional target) steps
  | field {fields : Fields} {name : String} {directive : Directive} {shape : Shape} {pos : Nat}
      {steps : List Step} (hfield : ⟨name, directive, some shape⟩ ∈ fields.toList)
      (h : Leads length shape steps) :
      Leads length (.record fields) (⟨name, pos⟩ :: steps)

end Shape

/-- Steps into a part of an input that starts at `start`. The offsets never go back and none is
beyond the end of the input. -/
structure Trail (leads : List Step → Prop) (length start : Nat) (steps : List Step) : Prop where
  leads : leads steps
  ascending : (start :: steps.map Step.pos).Pairwise (· ≤ ·)
  within : ∀ s ∈ steps, s.pos ≤ length

namespace Trail

variable {leads leads' : List Step → Prop} {start pos : Nat} {steps : List Step}

/-- No step leads to the value itself. -/
theorem here (h : leads []) : Trail leads length start [] :=
  ⟨h, List.pairwise_singleton _ _, nofun⟩

/-- The same steps may lead from another shape. -/
theorem imp (himp : ∀ steps, leads' steps → leads steps) (h : Trail leads' length start steps) :
    Trail leads length start steps :=
  ⟨himp _ h.leads, h.ascending, h.within⟩

/-- A part of a part that starts later. -/
theorem sooner (hle : start ≤ pos) (h : Trail leads length pos steps) :
    Trail leads length start steps := by
  obtain ⟨hpos, hsteps⟩ := List.pairwise_cons.mp h.ascending
  have hascending : ((start :: steps.map Step.pos)).Pairwise (· ≤ ·) :=
    List.pairwise_cons.mpr ⟨fun q hq => Nat.le_trans hle (hpos q hq), hsteps⟩
  exact ⟨h.leads, hascending, h.within⟩

/-- One more step in front, to a part that starts within the input and no later than what is inside
it. -/
theorem cons {name : String} (hle : start ≤ pos) (hpos : pos ≤ length)
    (hleads : leads' steps → leads (⟨name, pos⟩ :: steps)) (h : Trail leads' length pos steps) :
    Trail leads length start (⟨name, pos⟩ :: steps) where
  leads := hleads h.leads
  ascending := by
    obtain ⟨hlater, _⟩ := List.pairwise_cons.mp h.ascending
    refine List.pairwise_cons.mpr ⟨fun q hq => ?_, h.ascending⟩
    -- The first offset is that of the part, and the others come after it.
    rcases List.mem_cons.mp hq with rfl | hq
    · exact hle
    · exact Nat.le_trans hle (hlater q hq)
  within := List.forall_mem_cons.mpr ⟨hpos, h.within⟩

end Trail

/-! ## Places -/

/-- Elements of an array are decoded from where the array is, in the same scope. -/
theorem Items.place {ctx : Context} {elem : Context → Decoder α} {c c' : Cursor} {as : List α}
    (hforward : ∀ ctx, Decoder.Forward (elem ctx)) (h : Items ctx elem c as c') :
    c.pos ≤ c'.pos ∧ c'.stop = c.stop := by
  induction h with
  | nil => exact ⟨Nat.le_refl _, rfl⟩
  | cons hrun _ ih =>
    obtain ⟨b, hadv⟩ := (hforward _).advances hrun
    exact ⟨Nat.le_trans hadv.pos_le ih.1, ih.2.trans hadv.stop⟩

namespace Sequence

variable {ctx : Context} {elem : Context → Decoder α} {head : Head} {seq seq' : Sequence}
  {c c' : Cursor} {as : List α}

/-- The content keeps its place in the input. -/
theorem place_of_ofHead (h : ofHead ctx head c = .ok seq c') :
    c.pos ≤ seq.scope.pos ∧ seq.scope.stop ≤ c.stop := by
  obtain ⟨front, c₁, body, _, hfront, hbody, _, rfl⟩ := ofHead_ok.mp h
  have hstop : c₁.pos + body.length ≤ c₁.stop := by
    rw [← hbody.pos, ← hbody.stop]
    exact c'.pos_le_stop
  exact ⟨hfront.pos_le, hfront.stop ▸ hstop⟩

/-- Elements are decoded in the scope of the content. -/
theorem Yields.place (hforward : ∀ ctx, Decoder.Forward (elem ctx))
    (h : Yields ctx elem seq as seq') :
    seq.scope.pos ≤ seq'.scope.pos ∧ seq'.scope.stop = seq.scope.stop := by
  induction h with
  | nil => exact ⟨Nat.le_refl _, rfl⟩
  | cons hnext _ ih =>
    obtain ⟨_, _, scope, hrun, _, rfl⟩ := next_some.mp hnext
    obtain ⟨b, hadv⟩ := (hforward _).advances hrun
    exact ⟨Nat.le_trans hadv.pos_le ih.1, ih.2.trans hadv.stop⟩

/-- An element of the content is inside of what the content is in, and if something is left of the
content, it starts before the end. -/
theorem place_of_yields (hforward : ∀ ctx, Decoder.Forward (elem ctx))
    (hopen : ofHead ctx head c = .ok seq c') (hbefore : Yields ctx elem seq as seq')
    (hleft : seq'.scope.rest ≠ []) :
    c.pos ≤ seq'.scope.pos ∧ seq'.scope.stop ≤ c.stop ∧ seq'.scope.pos < seq'.scope.stop := by
  obtain ⟨hpos, hstop⟩ := place_of_ofHead hopen
  obtain ⟨hpos', hstop'⟩ := hbefore.place hforward
  refine ⟨Nat.le_trans hpos hpos', hstop' ▸ hstop, Nat.lt_add_of_pos_right ?_⟩
  rw [seq'.scope.remaining_eq]
  exact List.length_pos_iff.mpr hleft

/-- The elements of a vector, which move forwards whatever their type is. -/
theorem element_place {elem : Schema α} {elemShape : Shape} (hopen : ofHead ctx head c = .ok seq c')
    (hbefore : Yields ctx (fun ctx => elem.decode ctx elemShape) seq as seq')
    (hleft : seq'.scope.rest ≠ []) :
    c.pos ≤ seq'.scope.pos ∧ seq'.scope.stop ≤ c.stop ∧ seq'.scope.pos < seq'.scope.stop :=
  place_of_yields (fun ctx => elem.decode_forward ctx elemShape) hopen hbefore hleft

/-- The entries of a map. -/
theorem entry_place {key : Schema κ} {value : Schema β} {keyShape valueShape : Shape}
    {es : List (κ × β)} (hopen : ofHead ctx head c = .ok seq c')
    (hbefore : Yields ctx
      (Decoder.entry (fun ctx => key.decode ctx keyShape) fun ctx => value.decode ctx valueShape)
      seq es seq')
    (hleft : seq'.scope.rest ≠ []) :
    c.pos ≤ seq'.scope.pos ∧ seq'.scope.stop ≤ c.stop ∧ seq'.scope.pos < seq'.scope.stop :=
  place_of_yields
    (.entry (fun ctx => key.decode_forward ctx keyShape)
      fun ctx => value.decode_forward ctx valueShape) hopen hbefore hleft

end Sequence

/-- Fields are decoded one behind the other, in the scope of the record. -/
theorem Schema.Fields.GetsTo.place {fields : Schema.Fields α} {shapes : Shape.Fields}
    {ctx : Context} {c : Cursor} {site : Site} (h : fields.GetsTo shapes ctx c site) :
    c.pos ≤ site.cursor.pos ∧ site.cursor.stop = c.stop := by
  induction h with
  | here => exact ⟨Nat.le_refl _, rfl⟩
  | @present _ _ _ schema _ _ _ _ _ _ _ _ _ _ hfield _ ih =>
    obtain ⟨b, hadv⟩ := (schema.decode_forward _ _).advances hfield
    exact ⟨Nat.le_trans hadv.pos_le ih.1, ih.2.trans hadv.stop⟩
  | absent _ ih => exact ih

/-! ## Sites -/

namespace Site

variable {s t site root : Site}

/-- The path of the site goes on from that of the root, by a trail along the shape of the root. -/
def Below (length : Nat) (root site : Site) : Prop :=
  ∃ steps, site.ctx.location = steps.reverse ++ root.ctx.location ∧
    Trail (root.shape.Leads length) length root.cursor.pos steps

/-- The path of a value itself has no more steps than that of the value. -/
theorem below_refl (s : Site) : Below length s s := ⟨[], rfl, .here .here⟩

/-- What is below a part that goes by the same path. -/
theorem Below.same (h : Below length t site) (hctx : t.ctx = s.ctx)
    (hpos : s.cursor.pos ≤ t.cursor.pos)
    (hleads : ∀ steps, t.shape.Leads length steps → s.shape.Leads length steps) :
    Below length s site := by
  obtain ⟨steps, hloc, htrail⟩ := h
  exact ⟨steps, hctx ▸ hloc, (htrail.imp hleads).sooner hpos⟩

/-- What is below a part with a step of its own. -/
theorem Below.push {name : String} {pos : Nat} (h : Below length t site)
    (hctx : t.ctx = s.ctx.push name pos) (hle : s.cursor.pos ≤ pos) (hpos : pos ≤ t.cursor.pos)
    (hwithin : pos ≤ length)
    (hleads : ∀ steps, t.shape.Leads length steps → s.shape.Leads length (⟨name, pos⟩ :: steps)) :
    Below length s site := by
  obtain ⟨steps, hloc, htrail⟩ := h
  refine ⟨⟨name, pos⟩ :: steps, ?_, (htrail.sooner hpos).cons hle hwithin (hleads steps)⟩
  rw [hloc, hctx, List.reverse_cons, List.append_assoc, List.singleton_append]
  rfl

/-- A part starts no earlier than the whole and ends no later. -/
theorem Part.place (h : s.Part t) :
    s.cursor.pos ≤ t.cursor.pos ∧ t.cursor.stop ≤ s.cursor.stop := by
  cases h with
  | boxed => exact ⟨Nat.le_refl _, Nat.le_refl _⟩
  | required => exact ⟨Nat.le_refl _, Nat.le_refl _⟩
  | flagged hflag =>
    obtain ⟨b, hadv⟩ := Decoder.readByte_forward.advances hflag
    exact ⟨hadv.pos_le, Nat.le_of_eq hadv.stop⟩
  | @item _ _ elem _ elemShape _ _ _ _ hbefore _ =>
    obtain ⟨hpos, hstop⟩ := hbefore.place fun ctx => elem.decode_forward ctx elemShape
    exact ⟨hpos, Nat.le_of_eq hstop⟩
  | element hopen hbefore hleft =>
    obtain ⟨hpos, hstop, _⟩ := Sequence.element_place hopen hbefore hleft
    exact ⟨hpos, hstop⟩
  | key hopen hbefore hleft =>
    obtain ⟨hpos, hstop, _⟩ := Sequence.entry_place hopen hbefore hleft
    exact ⟨hpos, hstop⟩
  | @value _ _ _ _ _ key _ keyShape _ _ _ _ _ _ _ _ _ _ hopen hbefore hleft hkey =>
    obtain ⟨hpos, hstop, _⟩ := Sequence.entry_place hopen hbefore hleft
    -- The value is behind the key, in the same scope.
    obtain ⟨b, hadv⟩ := (key.decode_forward _ keyShape).advances hkey
    exact ⟨Nat.le_trans hpos hadv.pos_le, hadv.stop ▸ hstop⟩
  | field h => exact ⟨h.place.1, Nat.le_of_eq h.place.2⟩

/-- One step down, whatever comes below. -/
theorem Part.below (h : s.Part t) (hend : s.cursor.stop ≤ length) (hbelow : Below length t site) :
    Below length s site := by
  -- The part starts within the input because it ends there.
  have hplace := h.place
  have hwithin : t.cursor.pos ≤ length :=
    Nat.le_trans t.cursor.pos_le_stop (Nat.le_trans hplace.2 hend)
  cases h with
  | boxed => exact hbelow.same rfl hplace.1 fun _ => .pointer
  | required => exact hbelow.same rfl hplace.1 fun _ => .pointer
  | flagged _ => exact hbelow.same rfl hplace.1 fun _ => .optional
  | item _ _ => exact hbelow.push rfl hplace.1 (Nat.le_refl _) hwithin fun _ => .array
  -- Something is left of the content, so elements and entries start before its end.
  | element hopen hbefore hleft =>
    obtain ⟨hpos, hstop, hlt⟩ := Sequence.element_place hopen hbefore hleft
    have hinside := Nat.lt_of_lt_of_le hlt (Nat.le_trans hstop hend)
    exact hbelow.push rfl hpos (Nat.le_refl _) hwithin fun _ => .vector hinside
  | key hopen hbefore hleft =>
    obtain ⟨hpos, hstop, hlt⟩ := Sequence.entry_place hopen hbefore hleft
    have hinside := Nat.lt_of_lt_of_le hlt (Nat.le_trans hstop hend)
    exact hbelow.push rfl hpos (Nat.le_refl _) hwithin fun _ => .key hinside
  | @value _ _ _ _ _ key _ keyShape _ _ _ _ _ _ _ _ _ _ hopen hbefore hleft hkey =>
    obtain ⟨hpos, hstop, hlt⟩ := Sequence.entry_place hopen hbefore hleft
    have hinside := Nat.lt_of_lt_of_le hlt (Nat.le_trans hstop hend)
    -- The step names the place of the entry, and the value comes behind the key.
    obtain ⟨b, hadv⟩ := (key.decode_forward _ keyShape).advances hkey
    exact hbelow.push rfl hpos hadv.pos_le (Nat.le_of_lt hinside) fun _ => .value hinside
  | field h =>
    obtain ⟨name, directive, hmem, hctx⟩ := h.exists_push
    exact hbelow.push hctx hplace.1 (Nat.le_refl _) hwithin fun _ => .field hmem

/-- All steps down from the root. -/
theorem Reaches.below (h : root.Reaches site) (hend : root.cursor.stop ≤ length) :
    Below length root site := by
  -- From the bottom up: every step down is put in front of what is below it already.
  induction h using Relation.ReflTransGen.head_induction_on with
  | refl => exact below_refl site
  | head hpart _ ih => exact hpart.below hend (ih (Nat.le_trans hpart.place.2 hend))

end Site

/-! ## Schemas -/

namespace Schema

/-- The path in an error is one that the resolved shape has. It starts with the whole value at the
start of the input, its offsets never go back, and it stays within the input. Each offset is where a
part starts that decoding has got to by the path up to there. -/
theorem unmarshalWith_error_path {schema : Schema α} {d : Directive} {config : Config}
    {data : Bytes} {e : DecodeError} {loc : Location}
    (h : schema.unmarshalWith d config data = .error e) (hloc : e.location? = some loc) :
    (∃ shape, schema.resolve d = .ok shape ∧ shape.Leads data.length loc.reverse ∧
        ∀ step outer, step :: outer <:+ loc →
          ∃ part, Site.Reaches ⟨schema, shape, .top config, .ofBytes data⟩ part ∧
            part.ctx.location = step :: outer ∧ part.cursor.pos = step.pos) ∧
      loc.text = "\x7b0\x7d" ++ String.join (loc.reverse.map Step.text) ∧
      (loc.reverse.map Step.pos).Pairwise (· ≤ ·) ∧ ∀ s ∈ loc, s.pos ≤ data.length := by
  cases hresolve : schema.resolve d with
  | error e' =>
    rw [unmarshalWith, hresolve] at h
    cases h
    cases hloc
  | ok shape =>
    obtain ⟨c, hrun⟩ := (unmarshalWith_error hresolve).mp h
    have hstop : (Cursor.ofBytes data).stop = data.length := Nat.zero_add _
    -- The error is that of a site, whose path is the one in the error.
    obtain ⟨site, hreach, hat⟩ := exists_site schema hrun
    obtain ⟨steps, hsteps, htrail⟩ := hreach.below (Nat.le_of_eq hstop)
    -- The path of the whole value has no steps.
    obtain rfl : loc = site.ctx.location := Option.some.inj (hloc.symm.trans hat)
    have hreverse : site.ctx.location.reverse = steps := by
      have hall : site.ctx.location = steps.reverse := hsteps.trans (List.append_nil _)
      rw [hall, List.reverse_reverse]
    have hwithin : ∀ s ∈ site.ctx.location, s.pos ≤ data.length :=
      fun s hs => htrail.within s (hreverse ▸ List.mem_reverse.mpr hs)
    refine ⟨⟨shape, rfl, ?_, fun step outer => hreach.exists_start rfl⟩, Location.text_eq _, ?_,
      hwithin⟩
    · rw [hreverse]
      exact htrail.leads
    · rw [hreverse]
      exact htrail.ascending.tail

/-- The second number of the second table leaves the declared content. A table and its numbers start
at the same byte, because the field before them is not on the wire. -/
theorem unmarshalWith_error_path_tables :
    let table : Schema (BitVec 8 × List (BitVec 16) × Unit) :=
      .record "Table"
        (.cons ⟨"seen", .omit, "u8"⟩ (.uint .u8)
          (.cons ⟨"rows", .head 1, "Vec<u16>"⟩ (.vector "Vec<u16>" (.uint .u16)) .nil))
        fun _ => .ok ()
    let schema : Schema (Tuple (BitVec 8 × List (BitVec 16) × Unit) 2) :=
      .array "[Table; 2]" table 2
    let loc : Location := [⟨"[]", 6⟩, ⟨"rows", 3⟩, ⟨"[]", 3⟩]
    schema.unmarshalWith .default {} [2, 0, 5, 3, 0, 7, 9] = .error (.malformed loc .overrun) ∧
      (∃ shape, schema.resolve .default = .ok shape ∧ shape.Leads 7 loc.reverse ∧
        ∃ part, Site.Reaches ⟨schema, shape, .top {}, .ofBytes [2, 0, 5, 3, 0, 7, 9]⟩ part ∧
          part.ctx.location = loc ∧ part.cursor.pos = 6) ∧
      loc.text = "\x7b0\x7d.[]\x7b3\x7d.rows\x7b3\x7d.[]\x7b6\x7d" := by
  intro table schema loc
  have hrun : schema.unmarshalWith .default {} [2, 0, 5, 3, 0, 7, 9] =
      .error (.malformed loc .overrun) := by
    -- The error can be evaluated, without the value that there might have been.
    have herror : (schema.unmarshalWith .default {} [2, 0, 5, 3, 0, 7, 9]).map (fun _ => ()) =
        .error (.malformed loc .overrun) := by
      decide +kernel
    generalize schema.unmarshalWith .default {} [2, 0, 5, 3, 0, 7, 9] = r at herror
    cases r with
    | ok _ => cases herror
    | error e => exact congrArg Except.error (Except.error.inj herror)
  obtain ⟨⟨shape, hresolve, hleads, hstart⟩, htext, _, _⟩ := unmarshalWith_error_path hrun rfl
  obtain ⟨part, hreach, hpath, hpos⟩ := hstart _ _ (List.suffix_refl loc)
  refine ⟨hrun, ⟨shape, hresolve, hleads, part, hreach, hpath, hpos⟩, ?_⟩
  rw [htext]
  decide

end Schema

end TlsWire
