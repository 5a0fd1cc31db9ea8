import TlsWire.Proofs.Schema.Resolve
import Mathlib.Logic.Relation

/-!
# Resolution yields only unambiguous shapes

A vector or map without a head takes everything that is left, so nothing may follow it. What
resolution yields has at most one of these, and then at its very end: `Shape.AtEnd` goes down
through pointers and last fields only. All other heads tell a length in a form that is known
(`Shape.Unambiguous`, `Schema.resolve_unambiguous`).

Each way of building a shape keeps this, given that nothing greedy is placed where something may
follow (`Shape.WellPlaced`); the checks made on the way are what provides that.
-/

namespace TlsWire

variable {α β : Type}

namespace Shape

/-- A field of a record, with its shape if it is on the wire. -/
structure Field where
  name : String
  directive : Directive
  shape : Option Shape

/-- Fields one after the other, with those that are left out. -/
def Fields.toList : Fields → List Field
  | .nil => []
  | .present name directive shape rest => ⟨name, directive, some shape⟩ :: rest.toList
  | .absent name directive rest => ⟨name, directive, none⟩ :: rest.toList

/-- The shapes of the fields that are on the wire, in order. -/
def Fields.onWire (fields : Fields) : List Shape := fields.toList.filterMap Field.shape

mutual

/-- All heads in a shape, at any depth. -/
def heads : Shape → List Head
  | .array elem _ => elem.heads
  | .vector elem head => head :: elem.heads
  | .map key value head => head :: (key.heads ++ value.heads)
  | .pointer target => target.heads
  | .optional target => target.heads
  | .record fields => fields.heads
  | _ => []

/-- All heads in the fields that are on the wire. -/
def Fields.heads : Fields → List Head
  | .nil => []
  | .present _ _ shape rest => shape.heads ++ rest.heads
  | .absent _ _ rest => rest.heads

end

/-- What a shape is made of, one level down. -/
inductive Child : Shape → Shape → Prop where
  | arrayElem {elem : Shape} {length : Nat} : Child (.array elem length) elem
  | vectorElem {elem : Shape} {head : Head} : Child (.vector elem head) elem
  | mapKey {key value : Shape} {head : Head} : Child (.map key value head) key
  | mapValue {key value : Shape} {head : Head} : Child (.map key value head) value
  | pointer {target : Shape} : Child (.pointer target) target
  | optional {target : Shape} : Child (.optional target) target
  | field {fields : Fields} {shape : Shape} (h : shape ∈ fields.onWire) :
      Child (.record fields) shape

/-- The shape itself, what it is made of, and so on. -/
def Within : Shape → Shape → Prop := Relation.ReflTransGen Child

/-- What ends together with a shape, one level down. -/
inductive Last : Shape → Shape → Prop where
  | pointer {target : Shape} : Last (.pointer target) target
  | optional {target : Shape} : Last (.optional target) target
  | field {fields : Fields} {shape : Shape} (h : fields.onWire.getLast? = some shape) :
      Last (.record fields) shape

/-- Reached through pointers and last fields only. -/
def AtEnd : Shape → Shape → Prop := Relation.ReflTransGen Last

/-- A vector or map without a head. -/
inductive OpenEnded : Shape → Prop where
  | vector {elem : Shape} : OpenEnded (.vector elem .unbounded)
  | map {key value : Shape} : OpenEnded (.map key value .unbounded)

/-- Nothing greedy stands where another one may follow, and exactly the omitted fields are not on
the wire. -/
def WellPlaced : Shape → Prop
  | .array elem _ => elem.isGreedy = false
  | .vector elem _ => elem.isGreedy = false
  | .map key value _ => key.isGreedy = false ∧ value.isGreedy = false
  | .record fields =>
    (∀ shape ∈ fields.onWire.dropLast, shape.isGreedy = false) ∧
      ∀ field ∈ fields.toList, field.shape = none ↔ field.directive = .omit
  | _ => True

/-- The heads that directives can ask for. -/
def validHeads : List Head := [.fixed 1, .fixed 2, .fixed 3, .varint, .unbounded]

/-- The end of every vector and map in the shape can be told. -/
structure Unambiguous (shape : Shape) : Prop where
  heads_valid : ∀ head ∈ shape.heads, head ∈ validHeads
  headed : shape.isGreedy = false → Head.unbounded ∉ shape.heads
  greedy : shape.isGreedy = true →
    shape.heads.count .unbounded = 1 ∧ ∃ part, AtEnd shape part ∧ part.OpenEnded
  only_atEnd : ∀ part, Within shape part → part.OpenEnded → AtEnd shape part
  placed : ∀ part, Within shape part → part.WellPlaced

/-! ## Fields -/

namespace Fields

variable {name type : String} {directive : Directive} {shape : Shape} {rest : Fields}

@[simp] theorem onWire_nil : Fields.nil.onWire = [] := rfl

@[simp] theorem onWire_present :
    (Fields.present name directive shape rest).onWire = shape :: rest.onWire := rfl

@[simp] theorem onWire_absent : (Fields.absent name directive rest).onWire = rest.onWire := rfl

/-- Some field is on the wire as soon as the list of these is not empty. -/
theorem anyPresent_iff : (fields : Fields) → (fields.anyPresent = true ↔ fields.onWire ≠ [])
  | .nil => by simp [anyPresent]
  | .present _ _ _ _ => by simp [anyPresent]
  | .absent _ _ rest => by
    rw [anyPresent, onWire_absent]
    exact anyPresent_iff rest

/-- The heads in fields are those in the shapes that are on the wire, in order. -/
theorem heads_eq_flatMap : (fields : Fields) → fields.heads = fields.onWire.flatMap Shape.heads
  | .nil => rfl
  | .present _ _ shape rest => by
    rw [heads, onWire_present, List.flatMap_cons, heads_eq_flatMap rest]
  | .absent _ _ rest => by
    rw [heads, onWire_absent]
    exact heads_eq_flatMap rest

/-- Fields are greedy where the last one on the wire is. -/
theorem isGreedy_eq : (fields : Fields) →
    fields.isGreedy = (fields.onWire.getLast?.map Shape.isGreedy).getD false
  | .nil => rfl
  | .present _ _ shape rest => by
    rw [isGreedy_present, onWire_present, List.getLast?_cons, isGreedy_eq rest]
    -- The field in hand is the last one on the wire if none of those behind it is.
    cases hrest : rest.onWire.getLast? with
    | none =>
      have hnone : ¬ rest.anyPresent = true := by
        rw [anyPresent_iff, Decidable.not_not]
        exact List.getLast?_eq_none_iff.mp hrest
      rw [if_neg hnone]
      rfl
    | some last =>
      have hsome : rest.anyPresent = true := by
        rw [anyPresent_iff]
        intro hnil
        rw [hnil] at hrest
        cases hrest
      rw [if_pos hsome]
      rfl
  | .absent _ _ rest => by
    rw [isGreedy_absent, onWire_absent]
    exact isGreedy_eq rest

/-- The check passes where no field but the last on the wire is greedy. Fields that are left out
may follow one that is. -/
theorem checkGreedy_ok_iff : (fields : Fields) →
    (fields.checkGreedy type = .ok () ↔ ∀ s ∈ fields.onWire.dropLast, s.isGreedy = false)
  | .nil => by simp [checkGreedy]
  | .present _ _ shape rest => by
    rw [checkGreedy_present, onWire_present, checkGreedy_ok_iff rest, anyPresent_iff]
    -- A field is checked only if another one on the wire comes after it.
    cases hrest : rest.onWire with
    | nil => simp
    | cons s shapes => simp
  | .absent _ _ rest => by
    rw [checkGreedy_absent, onWire_absent]
    exact checkGreedy_ok_iff rest

end Fields

/-! ## Going down -/

variable {s t part : Shape}

/-- The heads of a shape include those of what it is made of. -/
theorem mem_heads_of_child (h : Child s t) {head : Head} (hhead : head ∈ t.heads) :
    head ∈ s.heads := by
  cases h with
  | arrayElem => rwa [heads]
  | vectorElem => exact List.mem_cons_of_mem _ hhead
  | mapKey => exact List.mem_cons_of_mem _ (List.mem_append_left _ hhead)
  | mapValue => exact List.mem_cons_of_mem _ (List.mem_append_right _ hhead)
  | pointer => rwa [heads]
  | optional => rwa [heads]
  | field hmem =>
    rw [heads, Fields.heads_eq_flatMap]
    exact List.mem_flatMap.mpr ⟨t, hmem, hhead⟩

/-- An open end anywhere inside shows among the heads. -/
theorem unbounded_mem_heads (h : Within s part) (hopen : part.OpenEnded) :
    Head.unbounded ∈ s.heads := by
  -- By induction from the open end outwards.
  induction h using Relation.ReflTransGen.head_induction_on with
  | refl => cases hopen <;> exact List.mem_cons_self
  | head hchild _ ih => exact mem_heads_of_child hchild ih

/-- What is not at the end may be followed, so it is not greedy. -/
theorem last_or_bounded (hplaced : s.WellPlaced) (h : Child s t) :
    Last s t ∨ t.isGreedy = false := by
  cases h with
  | arrayElem => exact .inr hplaced
  | vectorElem => exact .inr hplaced
  | mapKey => exact .inr hplaced.1
  | mapValue => exact .inr hplaced.2
  | pointer => exact .inl .pointer
  | optional => exact .inl .optional
  | @field fields _ hmem =>
    -- A field is the last on the wire or one of those before it.
    rcases List.eq_nil_or_concat fields.onWire with hnil | ⟨init, last, hsplit⟩
    · rw [hnil] at hmem
      cases hmem
    · rw [hsplit, List.concat_eq_append] at hmem
      cases List.mem_append.mp hmem with
      | inl hinit =>
        refine .inr (hplaced.1 t ?_)
        rwa [hsplit, List.concat_eq_append, List.dropLast_concat]
      | inr hlast =>
        cases List.mem_singleton.mp hlast
        refine .inl (.field ?_)
        rw [hsplit, List.concat_eq_append, List.getLast?_concat]

/-! ## Ways of building a shape -/

namespace Unambiguous

/-- The heads are left to look at. The rest follows from how the shape is put together. -/
theorem of_children (hplaced : s.WellPlaced) (hchildren : ∀ t, Child s t → t.Unambiguous)
    (hvalid : ∀ head ∈ s.heads, head ∈ validHeads)
    (hheaded : s.isGreedy = false → Head.unbounded ∉ s.heads)
    (hgreedy : s.isGreedy = true →
      s.heads.count .unbounded = 1 ∧ ∃ part, AtEnd s part ∧ part.OpenEnded) :
    s.Unambiguous where
  heads_valid := hvalid
  headed := hheaded
  greedy := hgreedy
  only_atEnd part hpart hopen := by
    -- An open end below a child is at the end of the child. The child in turn is at the end of the
    -- shape, as it would not be greedy otherwise and have no open end.
    rcases Relation.ReflTransGen.cases_head_iff.mp hpart with rfl | ⟨t, hchild, hwithin⟩
    · exact .refl
    · cases last_or_bounded hplaced hchild with
      | inl hlast => exact .head hlast ((hchildren t hchild).only_atEnd part hwithin hopen)
      | inr hbounded =>
        have hmem : Head.unbounded ∈ t.heads := unbounded_mem_heads hwithin hopen
        exact absurd hmem ((hchildren t hchild).headed hbounded)
  placed part hpart := by
    rcases Relation.ReflTransGen.cases_head_iff.mp hpart with rfl | ⟨t, hchild, hwithin⟩
    · exact hplaced
    · exact (hchildren t hchild).placed part hwithin

/-- Where there is nothing inside there are no heads. -/
theorem leaf (hheads : s.heads = []) (hplaced : s.WellPlaced) (hchildless : ∀ t, ¬ Child s t)
    (hbounded : s.isGreedy = false) : s.Unambiguous := by
  refine .of_children hplaced (fun t h => absurd h (hchildless t)) ?_ ?_ ?_
  · rw [hheads]
    exact nofun
  · intro _
    rw [hheads]
    exact nofun
  · intro hgreedy
    rw [hbounded] at hgreedy
    cases hgreedy

/-- An array has no head, and no end that could be open. -/
theorem array {elem : Shape} (h : elem.Unambiguous) (hbounded : elem.isGreedy = false)
    (length : Nat) : (Shape.array elem length).Unambiguous := by
  refine .of_children hbounded ?_ ?_ ?_ nofun
  · intro t hchild
    cases hchild
    exact h
  · rw [heads]
    exact h.heads_valid
  · intro _
    rw [heads]
    exact h.headed hbounded

/-- A head goes before content without open ends, so there is at most one, and that is here. -/
theorem framed {inner : List Head} {head : Head} (hs : s.heads = head :: inner)
    (hplaced : s.WellPlaced) (hchildren : ∀ t, Child s t → t.Unambiguous)
    (hopen : head = .unbounded → s.OpenEnded) (hgreedy : s.isGreedy = true ↔ head = .unbounded)
    (hhead : head ∈ validHeads) (hvalid : ∀ h ∈ inner, h ∈ validHeads)
    (hinner : Head.unbounded ∉ inner) : s.Unambiguous := by
  refine .of_children hplaced hchildren ?_ ?_ ?_
  · rw [hs]
    exact List.forall_mem_cons.mpr ⟨hhead, hvalid⟩
  · intro hbounded hmem
    rw [hs] at hmem
    -- An open end is this one, which makes the shape greedy, or is inside, where there is none.
    cases List.mem_cons.mp hmem with
    | inl heq =>
      rw [hgreedy.mpr heq.symm] at hbounded
      cases hbounded
    | inr hmem => exact hinner hmem
  · intro h
    have heq : head = .unbounded := hgreedy.mp h
    rw [hs, heq, List.count_cons_self, List.count_eq_zero_of_not_mem hinner]
    exact ⟨rfl, s, .refl, hopen heq⟩

/-- A vector with a head that directives can ask for, whose elements end by themselves. -/
theorem vector {elem : Shape} {head : Head} (h : elem.Unambiguous)
    (hbounded : elem.isGreedy = false) (hhead : head ∈ validHeads) :
    (Shape.vector elem head).Unambiguous := by
  refine .framed rfl hbounded ?_ ?_ ?_ hhead h.heads_valid (h.headed hbounded)
  · intro t hchild
    cases hchild
    exact h
  · intro heq
    rw [heq]
    exact .vector
  · cases head <;> simp [isGreedy]

/-- A map with such a head, whose keys and values end by themselves. -/
theorem map {key value : Shape} {head : Head} (hkey : key.Unambiguous)
    (hkeyBounded : key.isGreedy = false) (hvalue : value.Unambiguous)
    (hvalueBounded : value.isGreedy = false) (hhead : head ∈ validHeads) :
    (Shape.map key value head).Unambiguous := by
  refine .framed rfl ⟨hkeyBounded, hvalueBounded⟩ ?_ ?_ ?_ hhead ?_ ?_
  · intro t hchild
    cases hchild with
    | mapKey => exact hkey
    | mapValue => exact hvalue
  · intro heq
    rw [heq]
    exact .map
  · cases head <;> simp [isGreedy]
  · exact List.forall_mem_append.mpr ⟨hkey.heads_valid, hvalue.heads_valid⟩
  · rw [List.mem_append]
    exact not_or_intro (hkey.headed hkeyBounded) (hvalue.headed hvalueBounded)

/-- What ends together with its last part has that part's open end, if there is one. -/
theorem through {front : List Head} (hs : s.heads = front ++ t.heads)
    (hgreedy : s.isGreedy = t.isGreedy) (hlast : Last s t) (hplaced : s.WellPlaced)
    (hchildren : ∀ t, Child s t → t.Unambiguous) (ht : t.Unambiguous)
    (hvalid : ∀ head ∈ front, head ∈ validHeads) (hfront : Head.unbounded ∉ front) :
    s.Unambiguous := by
  refine .of_children hplaced hchildren ?_ ?_ ?_
  · rw [hs]
    exact List.forall_mem_append.mpr ⟨hvalid, ht.heads_valid⟩
  · intro hbounded
    rw [hgreedy] at hbounded
    rw [hs, List.mem_append]
    exact not_or_intro hfront (ht.headed hbounded)
  · intro h
    rw [hgreedy] at h
    obtain ⟨hcount, part, hend, hopen⟩ := ht.greedy h
    rw [hs, List.count_append, List.count_eq_zero_of_not_mem hfront, hcount]
    exact ⟨rfl, part, .head hlast hend, hopen⟩

/-- A pointer ends where its target does. -/
theorem pointer (h : t.Unambiguous) : (Shape.pointer t).Unambiguous := by
  have hheads : (Shape.pointer t).heads = [] ++ t.heads := by rw [heads, List.nil_append]
  refine .through hheads (by rw [isGreedy]) .pointer trivial ?_ h nofun nofun
  intro t' hchild
  cases hchild
  exact h

/-- An optional value ends where its target does. The flag comes before it. -/
theorem optional (h : t.Unambiguous) : (Shape.optional t).Unambiguous := by
  have hheads : (Shape.optional t).heads = [] ++ t.heads := by rw [heads, List.nil_append]
  refine .through hheads (by rw [isGreedy]) .optional trivial ?_ h nofun nofun
  intro t' hchild
  cases hchild
  exact h

/-- A record ends where its last field on the wire does. The others end by themselves. -/
theorem record {fields : Fields} (hfields : ∀ t ∈ fields.onWire, t.Unambiguous)
    (hplaced : (Shape.record fields).WellPlaced) : (Shape.record fields).Unambiguous := by
  have hheads : (Shape.record fields).heads = fields.onWire.flatMap Shape.heads := by
    rw [heads, Fields.heads_eq_flatMap]
  have hgreedy : (Shape.record fields).isGreedy =
      (fields.onWire.getLast?.map Shape.isGreedy).getD false := by
    rw [isGreedy, Fields.isGreedy_eq]
  rcases List.eq_nil_or_concat fields.onWire with hnil | ⟨init, last, hsplit⟩
  · -- Nothing is on the wire, so there is nothing inside.
    refine .leaf ?_ hplaced ?_ ?_
    · rw [hheads, hnil, List.flatMap_nil]
    · intro t hchild
      cases hchild with
      | field hmem =>
        rw [hnil] at hmem
        cases hmem
    · rw [hgreedy, hnil]
      rfl
  · rw [List.concat_eq_append] at hsplit
    -- The fields before the last one are not greedy, so they have no open ends.
    have hinit : ∀ t ∈ init, t.Unambiguous ∧ t.isGreedy = false := by
      intro t ht
      refine ⟨hfields t (hsplit ▸ List.mem_append_left _ ht), hplaced.1 t ?_⟩
      rwa [hsplit, List.dropLast_concat]
    have hlast : fields.onWire.getLast? = some last := by rw [hsplit, List.getLast?_concat]
    have hfront : (Shape.record fields).heads = init.flatMap Shape.heads ++ last.heads := by
      rw [hheads, hsplit, List.flatMap_append, List.flatMap_singleton]
    refine .through hfront ?_ (.field hlast) hplaced ?_
      (hfields last (List.mem_of_getLast? hlast)) ?_ ?_
    · rw [hgreedy, hlast]
      rfl
    · intro t hchild
      cases hchild with
      | field hmem => exact hfields t hmem
    · intro head hmem
      obtain ⟨t, ht, hhead⟩ := List.mem_flatMap.mp hmem
      exact (hinit t ht).1.heads_valid head hhead
    · intro hmem
      obtain ⟨t, ht, hhead⟩ := List.mem_flatMap.mp hmem
      exact (hinit t ht).1.headed (hinit t ht).2 hhead

end Unambiguous

end Shape

namespace Schema

open Shape

/-- The width of a head is checked when it is selected, so only three of them are left. -/
theorem valid_of_head? {d : Directive} {head : Head} (h : d.head? = some head) :
    head ∈ validHeads := by
  cases head with
  | fixed width =>
    obtain ⟨_, hpos, hle⟩ := Directive.head?_eq_fixed.mp h
    obtain rfl | rfl | rfl : width = 1 ∨ width = 2 ∨ width = 3 := by omega
    · decide
    · decide
    · decide
  | varint => decide
  | unbounded => decide

mutual

/-- By induction on the schema: every check that is needed has been made, or there would be no
shape. -/
theorem unambiguous_of_resolve : {α : Type} → (schema : Schema α) → {d : Directive} →
    {shape : Shape} → schema.resolve d = .ok shape → shape.Unambiguous
  | _, .uint _, _, _, hresolve => by
    rcases resolve_uint.mp hresolve with ⟨_, rfl⟩ | ⟨_, rfl⟩
    · exact .leaf rfl trivial nofun rfl
    · exact .leaf rfl trivial nofun rfl
  | _, .array _ elem length, _, _, hresolve => by
    obtain ⟨_, elemShape, helem, hbounded, rfl⟩ := resolve_array.mp hresolve
    exact .array (unambiguous_of_resolve elem helem) hbounded length
  | _, .vector _ elem, _, _, hresolve => by
    obtain ⟨head, elemShape, hhead, helem, hbounded, rfl⟩ := resolve_vector.mp hresolve
    exact .vector (unambiguous_of_resolve elem helem) hbounded (valid_of_head? hhead)
  | _, .map _ _ _ key value, _, _, hresolve => by
    obtain ⟨head, keyShape, valueShape, hhead, hkey, hkeyBounded, hvalue, hvalueBounded, rfl⟩ :=
      resolve_map.mp hresolve
    exact .map (unambiguous_of_resolve key hkey) hkeyBounded
      (unambiguous_of_resolve value hvalue) hvalueBounded (valid_of_head? hhead)
  | _, .box _ content, _, _, hresolve => by
    obtain ⟨_, target, hcontent, rfl⟩ := resolve_box.mp hresolve
    exact .pointer (unambiguous_of_resolve content hcontent)
  | _, .option _ content, _, _, hresolve => by
    rcases resolve_option.mp hresolve with ⟨_, target, hcontent, rfl⟩ | ⟨_, target, hcontent, rfl⟩
    · exact .optional (unambiguous_of_resolve content hcontent)
    · exact .pointer (unambiguous_of_resolve content hcontent)
  | _, .record _ fields _ _, _, _, hresolve => by
    obtain ⟨_, shapes, hfields, hcheck, rfl⟩ := resolve_record.mp hresolve
    obtain ⟨honWire, homitted⟩ := Fields.unambiguous_of_resolve fields hfields
    exact .record honWire ⟨(Shape.Fields.checkGreedy_ok_iff shapes).mp hcheck, homitted⟩
  | _, .custom _, _, _, hresolve => by
    obtain ⟨_, rfl⟩ := resolve_custom.mp hresolve
    exact .leaf rfl trivial nofun rfl

/-- The fields on the wire are unambiguous, each by itself, and the others are those with `omit`.
That the greedy one comes last is checked for the record as a whole. -/
theorem Fields.unambiguous_of_resolve : {α : Type} → (fields : Fields α) →
    {shapes : Shape.Fields} → fields.resolve = .ok shapes →
    (∀ shape ∈ shapes.onWire, shape.Unambiguous) ∧
      ∀ field ∈ shapes.toList, field.shape = none ↔ field.directive = .omit
  | _, .nil, _, hresolve => by
    cases Fields.resolve_nil.mp hresolve
    exact ⟨nofun, nofun⟩
  | _, .cons info schema rest, _, hresolve => by
    rcases Fields.resolve_cons.mp hresolve with
      ⟨homit, restShapes, hrest, rfl⟩ | ⟨hon, shape, restShapes, hshape, hrest, rfl⟩
    · obtain ⟨honWire, homitted⟩ := Fields.unambiguous_of_resolve rest hrest
      refine ⟨honWire, List.forall_mem_cons.mpr ⟨?_, homitted⟩⟩
      exact ⟨fun _ => homit, fun _ => rfl⟩
    · obtain ⟨honWire, homitted⟩ := Fields.unambiguous_of_resolve rest hrest
      have hfield : shape.Unambiguous := unambiguous_of_resolve schema hshape
      refine ⟨List.forall_mem_cons.mpr ⟨hfield, honWire⟩, List.forall_mem_cons.mpr ⟨?_, homitted⟩⟩
      exact ⟨nofun, fun homit => absurd homit hon⟩

end

/-- A type that resolves does so under a directive that selects a head, or under one of these. -/
theorem usable_of_resolve {d : Directive} {shape : Shape} : {α : Type} → (schema : Schema α) →
    schema.resolve d = .ok shape →
    (∃ head, d.head? = some head) ∨ d = .default ∨ d = .varint ∨ d = .optional
  | _, .uint _, hresolve => by
    rcases resolve_uint.mp hresolve with ⟨hd, _⟩ | ⟨hd, _⟩
    · exact .inr (.inl hd)
    · exact .inr (.inr (.inl hd))
  | _, .array _ _ _, hresolve => by
    obtain ⟨hd, _⟩ := resolve_array.mp hresolve
    exact .inr (.inl hd)
  | _, .vector _ _, hresolve => by
    obtain ⟨head, _, hhead, _⟩ := resolve_vector.mp hresolve
    exact .inl ⟨head, hhead⟩
  | _, .map _ _ _ _ _, hresolve => by
    obtain ⟨head, _, _, hhead, _⟩ := resolve_map.mp hresolve
    exact .inl ⟨head, hhead⟩
  | _, .box _ content, hresolve => by
    -- A pointer hands its directive on, so it is the target that decides.
    obtain ⟨_, target, hcontent, _⟩ := resolve_box.mp hresolve
    exact usable_of_resolve content hcontent
  | _, .option _ content, hresolve => by
    rcases resolve_option.mp hresolve with ⟨hd, _⟩ | ⟨_, target, hcontent, _⟩
    · exact .inr (.inr (.inr hd))
    · exact usable_of_resolve content hcontent
  | _, .record _ _ _ _, hresolve => by
    obtain ⟨hd, _⟩ := resolve_record.mp hresolve
    exact .inr (.inl hd)
  | _, .custom _, hresolve => by
    obtain ⟨hd, _⟩ := resolve_custom.mp hresolve
    exact .inr (.inl hd)

/-- Whatever a type resolves to is unambiguous. Nothing resolves as an omitted field, or under a
head of a width that heads do not have. -/
theorem resolve_unambiguous (schema : Schema α) (d : Directive) :
    (∀ shape, schema.resolve d = .ok shape → shape.Unambiguous) ∧
      (d = .omit ∨ (∃ n, d = .head n ∧ ¬ (1 ≤ n ∧ n ≤ 3)) → ∃ e, schema.resolve d = .error e) := by
  refine ⟨fun shape hresolve => unambiguous_of_resolve schema hresolve, fun hd => ?_⟩
  -- Neither of these directives selects a head, and no type goes by them otherwise.
  have hhead : d.head? = none := by
    rcases hd with rfl | ⟨n, rfl, hwidth⟩
    · rfl
    · exact if_neg hwidth
  have hplain : ¬ (d = .default ∨ d = .varint ∨ d = .optional) := by
    rcases hd with rfl | ⟨n, rfl, _⟩
    · exact nofun
    · exact nofun
  cases hresolve : schema.resolve d with
  | error e => exact ⟨e, rfl⟩
  | ok shape =>
    cases usable_of_resolve schema hresolve with
    | inl hsome =>
      obtain ⟨head, hsome⟩ := hsome
      rw [hhead] at hsome
      cases hsome
    | inr hd => exact absurd hd hplain

/-- The omitted field comes after the open end, and the vector inside a vector has a head. -/
theorem resolve_unambiguous_open_end :
    let schema : Schema (List (List (BitVec 8) × Unit) × BitVec 8 × Unit) :=
      .record "Parts"
        (.cons ⟨"parts", .headNone, "Vec<Part>"⟩
          (.vector "Vec<Part>" (.record "Part"
            (.cons ⟨"body", .head 2, "Vec<u8>"⟩ (.vector "Vec<u8>" (.uint .u8)) .nil)
            fun _ => .ok ()))
          (.cons ⟨"seen", .omit, "u8"⟩ (.uint .u8) .nil))
        fun _ => .ok ()
    ∃ shape, schema.resolve .default = .ok shape ∧ shape.isGreedy = true ∧
      shape.heads = [.unbounded, .fixed 2] ∧ shape.Unambiguous ∧
      ∃ e, schema.resolve (.head 4) = .error e := by
  intro schema
  refine ⟨_, rfl, rfl, rfl, ?_, ?_⟩
  · exact (resolve_unambiguous schema .default).1 _ rfl
  · exact (resolve_unambiguous schema (.head 4)).2 (.inr ⟨4, rfl, by decide⟩)

end Schema

end TlsWire
